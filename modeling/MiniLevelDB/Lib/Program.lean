import Mathlib.Tactic

/-! # Programs over an effect signature, with crashes

`Prog Op Res F α` is the type of programs that call operations `o : Op`, receive a result in
`Res o`, and end with a value of type `α` or with a fault in `F`.  A `Device` gives the
operations a meaning on a world `W`:

* `ok w o` is the result and the world after `o` when the operation succeeds; `none` when the
  device cannot carry it out;
* `torn w o w'` says that a crash in the middle of `o` may leave the world `w'`.

`run` is the execution without a crash, and `Crash p w w'` says that stopping `p` at some moment
(before an operation, inside one, or after the last) may leave `w'`.  `wp` is the weakest
precondition with a postcondition for the completed run and a crash condition for every moment
of it; `wp_run` is its adequacy, and `wp_bind`, `wp_call` and `wp_mono` the rules
the correctness proofs are composed with. -/

namespace Effect

/-- Programs over the signature `(Op, Res)` with faults in `F`. -/
inductive Prog (Op : Type) (Res : Op → Type) (F α : Type) : Type
  | ret (a : α) : Prog Op Res F α
  | call (o : Op) (k : Res o → Prog Op Res F α) : Prog Op Res F α
  | fault (f : F) : Prog Op Res F α

namespace Prog

variable {Op : Type} {Res : Op → Type} {F α β γ : Type}

/-- Sequencing: run `p`, hand its value to `f`. -/
def bind : Prog Op Res F α → (α → Prog Op Res F β) → Prog Op Res F β
  | ret a, f => f a
  | call o k, f => call o (fun r => (k r).bind f)
  | fault e, _ => fault e

instance : Monad (Prog Op Res F) where
  pure := ret
  bind := bind

/-- A single operation as a program. -/
def op (o : Op) : Prog Op Res F (Res o) := call o ret

@[simp] theorem pure_eq (a : α) : (pure a : Prog Op Res F α) = ret a := rfl

@[simp] theorem ret_bind (a : α) (f : α → Prog Op Res F β) : (ret a >>= f) = f a := rfl

@[simp] theorem call_bind (o : Op) (k : Res o → Prog Op Res F α) (f : α → Prog Op Res F β) :
    (call o k >>= f) = call o (fun r => k r >>= f) := rfl

@[simp] theorem op_bind (o : Op) (f : Res o → Prog Op Res F β) :
    ((op o : Prog Op Res F (Res o)) >>= f) = call o f := rfl

@[simp] theorem fault_bind (e : F) (f : α → Prog Op Res F β) :
    ((fault e : Prog Op Res F α) >>= f) = fault e := rfl

theorem bind_ret (p : Prog Op Res F α) : (p >>= ret) = p := by
  induction p with
  | ret a => rfl
  | call o k ih =>
      rw [call_bind]
      exact congrArg (call o) (funext ih)
  | fault e => rfl

theorem bind_assoc (p : Prog Op Res F α) (f : α → Prog Op Res F β) (g : β → Prog Op Res F γ) :
    (p >>= f >>= g) = p >>= fun a => f a >>= g := by
  induction p with
  | ret a => rfl
  | call o k ih =>
      simp only [call_bind]
      exact congrArg (call o) (funext ih)
  | fault e => rfl

instance : LawfulMonad (Prog Op Res F) :=
  LawfulMonad.mk' _ bind_ret (fun _ _ => rfl) bind_assoc

end Prog

/-! ### Devices and executions -/

/-- The meaning of the operations on a world `W`. -/
structure Device (Op : Type) (Res : Op → Type) (W : Type) where
  ok : W → (o : Op) → Option (Res o × W)
  torn : W → Op → W → Prop

/-- How an execution without a crash ends. -/
inductive Outcome (F W α : Type) : Type
  | done (a : α) (w : W) : Outcome F W α
  | fault (f : F) : Outcome F W α
  | stuck : Outcome F W α

namespace Prog

variable {Op : Type} {Res : Op → Type} {F W α β : Type} (d : Device Op Res W)

/-- Execution without a crash; `stuck` when an operation cannot be carried out. -/
def run : Prog Op Res F α → W → Outcome F W α
  | ret a, w => .done a w
  | call o k, w =>
      match d.ok w o with
      | some (r, w') => (k r).run w'
      | none => .stuck
  | fault f, _ => .fault f

/-- `Crash d p w w'`: stopping `p`, started in `w`, at some moment may leave `w'`. -/
inductive Crash : Prog Op Res F α → W → W → Prop
  | now (p : Prog Op Res F α) (w : W) : Crash p w w
  | torn {o : Op} {k : Res o → Prog Op Res F α} {w w' : W} :
      d.torn w o w' → Crash (call o k) w w'
  | later {o : Op} {k : Res o → Prog Op Res F α} {w w₁ w' : W} {r : Res o} :
      d.ok w o = some (r, w₁) → Crash (k r) w₁ w' → Crash (call o k) w w'

@[simp] theorem run_ret (a : α) (w : W) : (ret a : Prog Op Res F α).run d w = .done a w := rfl

@[simp] theorem run_fault (f : F) (w : W) :
    (fault f : Prog Op Res F α).run d w = .fault f := rfl

theorem run_call {o : Op} {k : Res o → Prog Op Res F α} {w w' : W} {r : Res o}
    (h : d.ok w o = some (r, w')) : (call o k).run d w = (k r).run d w' := by
  simp only [run, h]

theorem run_call_none {o : Op} {k : Res o → Prog Op Res F α} {w : W} (h : d.ok w o = none) :
    (call o k).run d w = .stuck := by
  rw [run, h]

theorem run_bind (p : Prog Op Res F α) (f : α → Prog Op Res F β) (w : W) :
    (p >>= f).run d w =
      match p.run d w with
      | .done a w' => (f a).run d w'
      | .fault e => .fault e
      | .stuck => .stuck := by
  induction p generalizing w with
  | ret a => rfl
  | call o k ih =>
      simp only [call_bind, run]
      cases h : d.ok w o with
      | none => rfl
      | some rw => exact ih rw.1 rw.2
  | fault e => rfl

theorem run_bind_done {p : Prog Op Res F α} {f : α → Prog Op Res F β} {w w' : W} {a : α}
    (h : p.run d w = .done a w') : (p >>= f).run d w = (f a).run d w' := by
  rw [run_bind, h]

/-- A completed run of a sequence is a completed run of each part. -/
theorem run_bind_eq_done {p : Prog Op Res F α} {f : α → Prog Op Res F β} {w w' : W} {b : β}
    (h : (p >>= f).run d w = .done b w') :
    ∃ a w₁, p.run d w = .done a w₁ ∧ (f a).run d w₁ = .done b w' := by
  rw [run_bind] at h
  cases hp : p.run d w with
  | done a w₁ =>
      rw [hp] at h
      exact ⟨a, w₁, rfl, h⟩
  | fault e => rw [hp] at h; cases h
  | stuck => rw [hp] at h; cases h

/-- A crash in the first part of a sequence is a crash of the sequence. -/
theorem Crash.bind {p : Prog Op Res F α} {w w' : W} (hc : Crash d p w w') (f : α → Prog Op Res F β) :
    Crash d (p >>= f) w w' := by
  induction hc with
  | now p w => exact .now _ w
  | torn ht => exact .torn ht
  | later ho _ ih => exact .later ho ih

/-- So is a crash in the rest, after the first part has run. -/
theorem crash_of_bind_run {p : Prog Op Res F α} {f : α → Prog Op Res F β} {w w₁ w' : W} {a : α}
    (h : p.run d w = .done a w₁) (hc : Crash d (f a) w₁ w') : Crash d (p >>= f) w w' := by
  induction p generalizing w with
  | ret b =>
      obtain ⟨rfl, rfl⟩ := Outcome.done.inj h
      exact hc
  | call o k ih =>
      cases ho : d.ok w o with
      | none =>
          rw [run_call_none d ho] at h
          cases h
      | some rw' =>
          rw [run_call d ho] at h
          exact .later ho (ih _ h)
  | fault f => cases h

/-! ### Weakest preconditions with a crash condition -/

/-- `wp d p Q C w`: started in `w`, the program `p` never faults, establishes `Q` if it
completes, and satisfies `C` at every moment a crash can strike. -/
def wp : Prog Op Res F α → (α → W → Prop) → (W → Prop) → W → Prop
  | ret a, Q, C, w => C w ∧ Q a w
  | call o k, Q, C, w =>
      C w ∧ (∀ w', d.torn w o w' → C w') ∧
        ∀ r w', d.ok w o = some (r, w') → (k r).wp Q C w'
  | fault _, _, _, _ => False

variable {d}

theorem wp_crash_now {p : Prog Op Res F α} {Q : α → W → Prop} {C : W → Prop} {w : W}
    (h : p.wp d Q C w) : C w := by
  cases p with
  | ret a => exact h.1
  | call o k => exact h.1
  | fault f => exact h.elim

/-- Adequacy for completed runs. -/
theorem wp_run {p : Prog Op Res F α} {Q : α → W → Prop} {C : W → Prop} {w w' : W} {a : α}
    (h : p.wp d Q C w) (hr : p.run d w = .done a w') : Q a w' := by
  induction p generalizing w with
  | ret b =>
      obtain ⟨rfl, rfl⟩ : b = a ∧ w = w' := by simpa [run] using hr
      exact h.2
  | call o k ih =>
      cases ho : d.ok w o with
      | none => simp [run, ho] at hr
      | some rw =>
          rw [run_call d ho] at hr
          exact ih _ (h.2.2 _ _ ho) hr
  | fault f => exact h.elim

/-- On a device where every operation has an outcome the postcondition is reached. -/
theorem run_of_wp (hd : ∀ w o, (d.ok w o).isSome = true) {p : Prog Op Res F α}
    {Q : α → W → Prop} {C : W → Prop} {w : W} (h : p.wp d Q C w) :
    ∃ a w', p.run d w = .done a w' ∧ Q a w' := by
  induction p generalizing w with
  | ret b => exact ⟨b, w, rfl, h.2⟩
  | call o k ih =>
      obtain ⟨r, hr⟩ := Option.isSome_iff_exists.mp (hd w o)
      rw [run_call d hr]
      exact ih _ (h.2.2 _ _ hr)
  | fault f => exact h.elim

/-- A program with a weakest precondition does not fault. -/
theorem wp_not_fault {p : Prog Op Res F α} {Q : α → W → Prop} {C : W → Prop} {w : W} {f : F}
    (h : p.wp d Q C w) : p.run d w ≠ .fault f := by
  induction p generalizing w with
  | ret b => simp [run]
  | call o k ih =>
      cases ho : d.ok w o with
      | none => simp [run, ho]
      | some rw =>
          rw [run_call d ho]
          exact ih _ (h.2.2 _ _ ho)
  | fault e => exact h.elim

theorem wp_mono {p : Prog Op Res F α} {Q Q' : α → W → Prop} {C C' : W → Prop} {w : W}
    (h : p.wp d Q C w) (hQ : ∀ a w, Q a w → Q' a w) (hC : ∀ w, C w → C' w) : p.wp d Q' C' w := by
  induction p generalizing w with
  | ret a => exact ⟨hC _ h.1, hQ _ _ h.2⟩
  | call o k ih =>
      exact ⟨hC _ h.1, fun w' ht => hC _ (h.2.1 w' ht), fun r w' ho => ih r (h.2.2 r w' ho)⟩
  | fault f => exact h

/-- The rule of sequencing. -/
theorem wp_bind {p : Prog Op Res F α} {f : α → Prog Op Res F β} {Q : β → W → Prop}
    {C : W → Prop} {w : W} (h : p.wp d (fun a w' => (f a).wp d Q C w') C w) :
    (p >>= f).wp d Q C w := by
  induction p generalizing w with
  | ret a => exact h.2
  | call o k ih => exact ⟨h.1, h.2.1, fun r w' ho => ih r (h.2.2 r w' ho)⟩
  | fault e => exact h.elim

/-- The rule of a single operation that no crash can tear. -/
theorem wp_call {o : Op} {k : Res o → Prog Op Res F α} {Q : α → W → Prop} {C : W → Prop}
    {w : W} (hC : C w) (htorn : ∀ w', d.torn w o w' → C w')
    (hok : ∀ r w', d.ok w o = some (r, w') → (k r).wp d Q C w') : (call o k).wp d Q C w :=
  ⟨hC, htorn, hok⟩

theorem wp_ret {a : α} {Q : α → W → Prop} {C : W → Prop} {w : W} (hC : C w) (hQ : Q a w) :
    (ret a : Prog Op Res F α).wp d Q C w := ⟨hC, hQ⟩

/-! ### Guards on the calls

`wpg d G F p Q C w` also asks that every call made satisfies the guard `G`, and lets the program fault
if `F`: with `F` false it is total, with `F` true it speaks about the executions without a fault. -/

variable (d)

/-- `Calls d p w o w'`: executing `p` from `w` comes to the call `o` in the world `w'`. -/
inductive Calls : Prog Op Res F α → W → Op → W → Prop
  | here (o : Op) (k : Res o → Prog Op Res F α) (w : W) : Calls (call o k) w o w
  | later {o o' : Op} {k : Res o → Prog Op Res F α} {w w₁ w' : W} {r : Res o} :
      d.ok w o = some (r, w₁) → Calls (k r) w₁ o' w' → Calls (call o k) w o' w'

def wpg (G : W → Op → Prop) (E : Prop) :
    Prog Op Res F α → (α → W → Prop) → (W → Prop) → W → Prop
  | ret a, Q, C, w => C w ∧ Q a w
  | call o k, Q, C, w =>
      C w ∧ G w o ∧ (∀ w', d.torn w o w' → C w') ∧
        ∀ r w', d.ok w o = some (r, w') → (k r).wpg G E Q C w'
  | fault _, _, C, w => C w ∧ E

/-- All calls a program can make satisfy `P`. -/
def Only (P : Op → Prop) : Prog Op Res F α → Prop
  | ret _ => True
  | call o k => P o ∧ ∀ r, (k r).Only P
  | fault _ => True

theorem Only.mono {P P' : Op → Prop} {p : Prog Op Res F α} (hp : p.Only P) (h : ∀ o, P o → P' o) :
    p.Only P' := by
  induction p with
  | ret a => trivial
  | call o k ih => exact ⟨h o hp.1, fun r => ih r (hp.2 r)⟩
  | fault e => trivial

theorem Only.bind {P : Op → Prop} {p : Prog Op Res F α} {f : α → Prog Op Res F β} (hp : p.Only P)
    (hf : ∀ a, (f a).Only P) : (p >>= f).Only P := by
  induction p with
  | ret a => exact hf a
  | call o k ih => exact ⟨hp.1, fun r => ih r (hp.2 r)⟩
  | fault e => trivial

/-- All calls a program can make satisfy `P`, and all its results `R`. -/
def Gives (P : Op → Prop) (R : α → Prop) : Prog Op Res F α → Prop
  | ret a => R a
  | call o k => P o ∧ ∀ r, (k r).Gives P R
  | fault _ => True

theorem Gives.bind {P : Op → Prop} {R : α → Prop} {R' : β → Prop} {p : Prog Op Res F α}
    {f : α → Prog Op Res F β} (hp : p.Gives P R) (hf : ∀ a, R a → (f a).Gives P R') :
    (p >>= f).Gives P R' := by
  induction p with
  | ret a => exact hf a hp
  | call o k ih => exact ⟨hp.1, fun r => ih r (hp.2 r)⟩
  | fault e => trivial

theorem Gives.only {P : Op → Prop} {R : α → Prop} {p : Prog Op Res F α} (hp : p.Gives P R) :
    p.Only P := by
  induction p with
  | ret a => trivial
  | call o k ih => exact ⟨hp.1, fun r => ih r (hp.2 r)⟩
  | fault e => trivial

variable {d} {G G' : W → Op → Prop} {E E' : Prop}

theorem wpg_crash_now {p : Prog Op Res F α} {Q : α → W → Prop} {C : W → Prop} {w : W}
    (h : p.wpg d G E Q C w) : C w := by
  cases p with
  | ret a => exact h.1
  | call o k => exact h.1
  | fault f => exact h.1

/-- Adequacy for completed runs. -/
theorem wpg_run {p : Prog Op Res F α} {Q : α → W → Prop} {C : W → Prop} {w w' : W} {a : α}
    (h : p.wpg d G E Q C w) (hr : p.run d w = .done a w') : Q a w' := by
  induction p generalizing w with
  | ret b =>
      obtain ⟨rfl, rfl⟩ : b = a ∧ w = w' := by simpa [run] using hr
      exact h.2
  | call o k ih =>
      cases ho : d.ok w o with
      | none => simp [run, ho] at hr
      | some rw =>
          rw [run_call d ho] at hr
          exact ih _ (h.2.2.2 _ _ ho) hr
  | fault f => cases hr

/-- Adequacy for crashes. -/
theorem wpg_crash {p : Prog Op Res F α} {Q : α → W → Prop} {C : W → Prop} {w w' : W}
    (h : p.wpg d G E Q C w) (hc : Crash d p w w') : C w' := by
  induction hc with
  | now p w => exact wpg_crash_now h
  | torn ht => exact h.2.2.1 _ ht
  | later ho _ ih => exact ih (h.2.2.2 _ _ ho)

/-- Adequacy for the calls. -/
theorem wpg_calls {p : Prog Op Res F α} {Q : α → W → Prop} {C : W → Prop} {w w' : W} {o : Op}
    (h : p.wpg d G E Q C w) (hc : Calls d p w o w') : G w' o := by
  induction hc with
  | here o k w => exact h.2.1
  | later ho _ ih => exact ih (h.2.2.2 _ _ ho)

/-- On a device where every operation has an outcome the postcondition is reached. -/
theorem run_of_wpg (hd : ∀ w o, (d.ok w o).isSome = true) {p : Prog Op Res F α}
    {Q : α → W → Prop} {C : W → Prop} {w : W} (h : p.wpg d G False Q C w) :
    ∃ a w', p.run d w = .done a w' ∧ Q a w' := by
  induction p generalizing w with
  | ret b => exact ⟨b, w, rfl, h.2⟩
  | call o k ih =>
      obtain ⟨r, hr⟩ := Option.isSome_iff_exists.mp (hd w o)
      rw [run_call d hr]
      exact ih _ (h.2.2.2 _ _ hr)
  | fault f => exact h.2.elim

theorem wpg_mono {p : Prog Op Res F α} {Q Q' : α → W → Prop} {C C' : W → Prop} {w : W}
    (h : p.wpg d G E Q C w) (hG : ∀ w o, G w o → G' w o) (hE : E → E') (hQ : ∀ a w, Q a w → Q' a w)
    (hC : ∀ w, C w → C' w) : p.wpg d G' E' Q' C' w := by
  induction p generalizing w with
  | ret a => exact ⟨hC _ h.1, hQ _ _ h.2⟩
  | call o k ih =>
      exact ⟨hC _ h.1, hG _ _ h.2.1, fun w' ht => hC _ (h.2.2.1 w' ht),
        fun r w' ho => ih r (h.2.2.2 r w' ho)⟩
  | fault f => exact ⟨hC _ h.1, hE h.2⟩

/-- The rule of sequencing. -/
theorem wpg_bind {p : Prog Op Res F α} {f : α → Prog Op Res F β} {Q : β → W → Prop}
    {C : W → Prop} {w : W} (h : p.wpg d G E (fun a w' => (f a).wpg d G E Q C w') C w) :
    (p >>= f).wpg d G E Q C w := by
  induction p generalizing w with
  | ret a => exact h.2
  | call o k ih => exact ⟨h.1, h.2.1, h.2.2.1, fun r w' ho => ih r (h.2.2.2 r w' ho)⟩
  | fault e => exact h

theorem wpg_ret {a : α} {Q : α → W → Prop} {C : W → Prop} {w : W} (hC : C w) (hQ : Q a w) :
    (ret a : Prog Op Res F α).wpg d G E Q C w := ⟨hC, hQ⟩

/-- A weakest precondition without a guard, for a program that only makes calls the guard lets pass. -/
theorem wpg_of_wp {p : Prog Op Res F α} {Q : α → W → Prop} {C : W → Prop} {w : W} {P : Op → Prop}
    (h : p.wp d Q C w) (hp : p.Only P) (hP : ∀ w o, P o → G w o) : p.wpg d G E Q C w := by
  induction p generalizing w with
  | ret a => exact h
  | call o k ih =>
      exact ⟨h.1, hP _ _ hp.1, h.2.1, fun r w' ho => ih r (h.2.2 r w' ho) (hp.2 r)⟩
  | fault f => exact h.elim

/-- What a sequence asks of its first part. -/
theorem wpg_of_bind {p : Prog Op Res F α} {f : α → Prog Op Res F β} {Q : β → W → Prop} {C : W → Prop}
    {w : W} (h : (p >>= f).wpg d G E Q C w) : p.wpg d G E (fun a w' => (f a).wpg d G E Q C w') C w := by
  induction p generalizing w with
  | ret a => exact ⟨wpg_crash_now h, h⟩
  | call o k ih => exact ⟨h.1, h.2.1, h.2.2.1, fun r w' ho => ih r (h.2.2.2 r w' ho)⟩
  | fault e => exact h

/-- The rest of a sequence, after its first part has run. -/
theorem wpg_of_bind_run {p : Prog Op Res F α} {f : α → Prog Op Res F β} {Q : β → W → Prop}
    {C : W → Prop} {w w' : W} {a : α} (h : (p >>= f).wpg d G E Q C w) (hr : p.run d w = .done a w') :
    (f a).wpg d G E Q C w' := by
  have hrest := wpg_run (wpg_of_bind h) hr
  exact hrest

/-- A program all of whose calls have an outcome reaches the postcondition. -/
theorem run_of_wpg_only {P : Op → Prop} (hd : ∀ w o, P o → (d.ok w o).isSome = true)
    {p : Prog Op Res F α} (hp : p.Only P) {Q : α → W → Prop} {C : W → Prop} {w : W}
    (h : p.wpg d G False Q C w) : ∃ a w', p.run d w = .done a w' ∧ Q a w' := by
  induction p generalizing w with
  | ret b => exact ⟨b, w, rfl, h.2⟩
  | call o k ih =>
      obtain ⟨r, hr⟩ := Option.isSome_iff_exists.mp (hd w o hp.1)
      rw [run_call d hr]
      exact ih _ (hp.2 _) (h.2.2.2 _ _ hr)
  | fault f => exact h.2.elim

end Prog
end Effect
