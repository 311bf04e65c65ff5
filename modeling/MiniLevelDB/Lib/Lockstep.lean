import MiniLevelDB.Lib.Program

/-! # One program on two devices

`After d E p Q w` is partial correctness on a device: if `p` completes it has established `Q`, and it faults
only with a fault in `E`.  `Follows` compares the executions of a program on two devices: on the first it
does what it does on the second, or comes to a failed call and ends with a bad value; the rules follow the
program.  `Avoids f` says that no execution ends with the fault `f`, whatever the device. -/

namespace Effect

/-- Two executions end alike. -/
inductive Outcome.Rel {F W₁ W₂ α : Type} (R : α → W₁ → W₂ → Prop) :
    Outcome F W₁ α → Outcome F W₂ α → Prop
  | done {a : α} {w₁ : W₁} {w₂ : W₂} : R a w₁ w₂ → Rel R (.done a w₁) (.done a w₂)
  | fault (f : F) : Rel R (.fault f) (.fault f)
  | stuck : Rel R .stuck .stuck

namespace Prog

variable {Op : Type} {Res : Op → Type} {F W α β : Type}

/-! ### Partial correctness -/

section

variable {d : Device Op Res W} {E : F → Prop}

/-- Run from `w`, the program has established `Q` when it completes, and faults only with a fault in `E`. -/
def After (d : Device Op Res W) (E : F → Prop) (p : Prog Op Res F α) (Q : α → W → Prop) (w : W) : Prop :=
  match p.run d w with
  | .done a w' => Q a w'
  | .fault f => E f
  | .stuck => True

theorem after_ret {a : α} {Q : α → W → Prop} {w : W} (h : Q a w) :
    (ret a : Prog Op Res F α).After d E Q w := h

theorem after_fault {f : F} {Q : α → W → Prop} {w : W} (h : E f) :
    (fault f : Prog Op Res F α).After d E Q w := h

theorem after_call {o : Op} {k : Res o → Prog Op Res F α} {Q : α → W → Prop} {w : W}
    (h : ∀ r w', d.ok w o = some (r, w') → (k r).After d E Q w') : (call o k).After d E Q w := by
  rw [After]
  cases ho : d.ok w o with
  | none =>
      rw [run_call_none d ho]
      trivial
  | some rw' =>
      rw [run_call d ho]
      exact h _ _ ho

/-- The rule of a call in a sequence. -/
theorem after_op {o : Op} {k : Res o → Prog Op Res F α} {Q : α → W → Prop} {w : W}
    (h : ∀ r w', d.ok w o = some (r, w') → (k r).After d E Q w') : (op o >>= k).After d E Q w :=
  after_call h

theorem after_bind {p : Prog Op Res F α} {f : α → Prog Op Res F β} {Q : β → W → Prop} {w : W}
    (h : p.After d E (fun a w' => (f a).After d E Q w') w) : (p >>= f).After d E Q w := by
  rw [After] at h ⊢
  rw [run_bind]
  cases hp : p.run d w with
  | done a w' =>
      rw [hp] at h
      exact h
  | fault e =>
      rw [hp] at h
      exact h
  | stuck => trivial

theorem After.mono {E' : F → Prop} {p : Prog Op Res F α} {Q Q' : α → W → Prop} {w : W}
    (h : p.After d E Q w) (hE : ∀ f, E f → E' f) (hQ : ∀ a w', Q a w' → Q' a w') : p.After d E' Q' w := by
  rw [After] at h ⊢
  cases hp : p.run d w with
  | done a w' =>
      rw [hp] at h
      exact hQ a w' h
  | fault e =>
      rw [hp] at h
      exact hE e h
  | stuck => trivial

/-- The rest of a sequence, after its first part has run. -/
theorem After.of_bind_run {p : Prog Op Res F α} {f : α → Prog Op Res F β} {Q : β → W → Prop} {w w' : W}
    {a : α} (h : (p >>= f).After d E Q w) (hr : p.run d w = .done a w') : (f a).After d E Q w' := by
  rw [After, run_bind_done d hr] at h
  exact h

theorem After.done {p : Prog Op Res F α} {Q : α → W → Prop} {w w' : W} {a : α} (h : p.After d E Q w)
    (hr : p.run d w = .done a w') : Q a w' := by
  rw [After, hr] at h
  exact h

/-- A program without faults all of whose calls have an outcome completes. -/
theorem After.exists_done {P : Op → Prop} (hd : ∀ w o, P o → (d.ok w o).isSome = true)
    {p : Prog Op Res F α} (hp : p.Only P) {Q : α → W → Prop} {w : W}
    (h : p.After d (fun _ => False) Q w) : ∃ a w', p.run d w = .done a w' ∧ Q a w' := by
  induction p generalizing w with
  | ret b => exact ⟨b, w, rfl, h⟩
  | call o k ih =>
      obtain ⟨r, hr⟩ := Option.isSome_iff_exists.mp (hd w o hp.1)
      rw [run_call d hr]
      apply ih _ (hp.2 _)
      rw [After, run_call d hr] at h
      exact h
  | fault f => exact h.elim

/-- What the calls of a program preserve, the program preserves. -/
theorem Only.preserves {P : Op → Prop} {I : W → Prop} {p : Prog Op Res F α} (hp : p.Only P)
    (hI : ∀ w o r w', P o → I w → d.ok w o = some (r, w') → I w') {w w' : W} {a : α} (hw : I w)
    (hr : p.run d w = .done a w') : I w' := by
  induction p generalizing w with
  | ret b =>
      obtain ⟨-, rfl⟩ := Outcome.done.inj hr
      exact hw
  | call o k ih =>
      cases ho : d.ok w o with
      | none =>
          rw [run_call_none d ho] at hr
          cases hr
      | some rw' =>
          rw [run_call d ho] at hr
          exact ih _ (hp.2 _) (hI _ _ _ _ hp.1 hw ho) hr
  | fault f => cases hr

/-- The value of a completed program is one of its results. -/
theorem Gives.result {P : Op → Prop} {R : α → Prop} {p : Prog Op Res F α} (hp : p.Gives P R) {w w' : W}
    {a : α} (hr : p.run d w = .done a w') : R a := by
  induction p generalizing w with
  | ret b =>
      obtain ⟨rfl, -⟩ := Outcome.done.inj hr
      exact hp
  | call o k ih =>
      cases ho : d.ok w o with
      | none =>
          rw [run_call_none d ho] at hr
          cases hr
      | some rw' =>
          rw [run_call d ho] at hr
          exact ih _ (hp.2 _) hr
  | fault f => cases hr

end

/-! ### Two devices -/

section

variable {W₁ W₂ : Type} {d₁ : Device Op Res W₁} {d₂ : Device Op Res W₂} {failure : Prop}

/-- On `d₁` the program ends as it does on `d₂`; or there is a failure, and it ends with a bad value. -/
def Follows (d₁ : Device Op Res W₁) (d₂ : Device Op Res W₂) (failure : Prop) (p : Prog Op Res F α)
    (bad : α → Prop) (R : α → W₁ → W₂ → Prop) (w₁ : W₁) (w₂ : W₂) : Prop :=
  (failure ∧ ∃ a w, p.run d₁ w₁ = .done a w ∧ bad a) ∨ Outcome.Rel R (p.run d₁ w₁) (p.run d₂ w₂)

variable {bad : α → Prop} {bad' : β → Prop} {R : α → W₁ → W₂ → Prop} {R' : β → W₁ → W₂ → Prop}
  {w₁ : W₁} {w₂ : W₂}

theorem follows_ret {a : α} (h : R a w₁ w₂) :
    (ret a : Prog Op Res F α).Follows d₁ d₂ failure bad R w₁ w₂ := Or.inr (.done h)

/-- The rule of a call that ends alike on both devices. -/
theorem follows_call {o : Op} {k : Res o → Prog Op Res F α} {r : Res o} {w₁' : W₁} {w₂' : W₂}
    (h₁ : d₁.ok w₁ o = some (r, w₁')) (h₂ : d₂.ok w₂ o = some (r, w₂'))
    (hk : (k r).Follows d₁ d₂ failure bad R w₁' w₂') : (call o k).Follows d₁ d₂ failure bad R w₁ w₂ := by
  rw [Follows, run_call d₁ h₁, run_call d₂ h₂]
  exact hk

/-- The rule of a call that fails. -/
theorem follows_failed {o : Op} {k : Res o → Prog Op Res F α} {r : Res o} {w₁' : W₁} {a : α}
    (h₁ : d₁.ok w₁ o = some (r, w₁')) (hfailure : failure) (hk : k r = ret a) (ha : bad a) :
    (call o k).Follows d₁ d₂ failure bad R w₁ w₂ := by
  refine Or.inl ⟨hfailure, a, w₁', ?_, ha⟩
  rw [run_call d₁ h₁, hk]
  rfl

/-- The rule of a call without an outcome. -/
theorem follows_stuck {o : Op} {k : Res o → Prog Op Res F α} (h₁ : d₁.ok w₁ o = none)
    (h₂ : d₂.ok w₂ o = none) : (call o k).Follows d₁ d₂ failure bad R w₁ w₂ := by
  right
  rw [run_call_none d₁ h₁, run_call_none d₂ h₂]
  exact .stuck

/-- The rule of sequencing: a bad value of the first part is passed on. -/
theorem follows_bind {p : Prog Op Res F α} {f : α → Prog Op Res F β}
    (hp : p.Follows d₁ d₂ failure bad (fun a w₁ w₂ => (f a).Follows d₁ d₂ failure bad' R' w₁ w₂) w₁ w₂)
    (hbad : ∀ a, bad a → ∃ b, f a = ret b ∧ bad' b) :
    (p >>= f).Follows d₁ d₂ failure bad' R' w₁ w₂ := by
  rcases hp with ⟨hfailure, a, w, hrun, ha⟩ | hrel
  · obtain ⟨b, hb, hbad'⟩ := hbad a ha
    refine Or.inl ⟨hfailure, b, w, ?_, hbad'⟩
    rw [run_bind_done d₁ hrun, hb]
    rfl
  · rw [Follows, run_bind, run_bind]
    generalize p.run d₁ w₁ = x₁ at hrel ⊢
    generalize p.run d₂ w₂ = x₂ at hrel ⊢
    cases hrel with
    | done h => exact h
    | fault e => exact Or.inr (.fault e)
    | stuck => exact Or.inr .stuck

theorem follows_mono {p : Prog Op Res F α} {R₁ : α → W₁ → W₂ → Prop}
    (h : p.Follows d₁ d₂ failure bad R w₁ w₂) (hR : ∀ a w₁ w₂, R a w₁ w₂ → R₁ a w₁ w₂) :
    p.Follows d₁ d₂ failure bad R₁ w₁ w₂ := by
  rcases h with hbad | hrel
  · exact Or.inl hbad
  · right
    generalize p.run d₁ w₁ = x₁ at hrel ⊢
    generalize p.run d₂ w₂ = x₂ at hrel ⊢
    cases hrel with
    | done h => exact .done (hR _ _ _ h)
    | fault e => exact .fault e
    | stuck => exact .stuck

end

/-! ### Faults that do not occur -/

/-- No execution of the program ends with the fault `f`. -/
def Avoids (f : F) : Prog Op Res F α → Prop
  | ret _ => True
  | call _ k => ∀ r, (k r).Avoids f
  | fault e => e ≠ f

theorem avoids_op {f : F} {o : Op} {k : Res o → Prog Op Res F α} (hk : ∀ r, (k r).Avoids f) :
    (op o >>= k).Avoids f := hk

theorem Avoids.bind {f : F} {p : Prog Op Res F α} {k : α → Prog Op Res F β} (hp : p.Avoids f)
    (hk : ∀ a, (k a).Avoids f) : (p >>= k).Avoids f := by
  induction p with
  | ret a => exact hk a
  | call o k' ih => exact fun r => ih r (hp r)
  | fault e => exact hp

theorem Avoids.run_ne {f : F} {p : Prog Op Res F α} (hp : p.Avoids f) (d : Device Op Res W) (w : W) :
    p.run d w ≠ .fault f := by
  induction p generalizing w with
  | ret a => exact fun h => by cases h
  | call o k ih =>
      cases ho : d.ok w o with
      | none =>
          rw [run_call_none d ho]
          exact fun h => by cases h
      | some rw' =>
          rw [run_call d ho]
          exact ih _ (hp _) _
  | fault e =>
      intro h
      cases h
      exact hp rfl

end Prog
end Effect
