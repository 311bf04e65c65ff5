import Mathlib.Data.List.Basic
import Mathlib.Logic.Function.Basic

/-! # Systems of steps

A `System` makes steps that show an event, or none.  A relation of two systems is a `Simulation` when every
step of the first is matched by one of the second, which shows the same event; then the second has all
traces of the first (`Simulation.run`).  The relation may know the events so far, and the steps need be
matched only as long as these are `good`. -/

namespace Effect

/-- A system of steps between states; a step that shows no event is hidden. -/
structure System (E S : Type) where
  start : S → Prop
  step : S → Option E → S → Prop

namespace System

variable {E S T : Type}

/-- The states after the events of a run. -/
inductive Run (C : System E S) : S → List E → Prop
  | start {s : S} : C.start s → Run C s []
  | hidden {s s' : S} {es : List E} : Run C s es → C.step s none s' → Run C s' es
  | event {s s' : S} {es : List E} {e : E} : Run C s es → C.step s (some e) s' → Run C s' (es ++ [e])

/-- What a step preserves holds in every run. -/
theorem Run.invariant {C : System E S} {I : List E → S → Prop} (hstart : ∀ s, C.start s → I [] s)
    (hhidden : ∀ es s s', I es s → C.step s none s' → I es s')
    (hevent : ∀ es s e s', I es s → C.step s (some e) s' → I (es ++ [e]) s') {s : S} {es : List E}
    (h : C.Run s es) : I es s := by
  induction h with
  | start hs => exact hstart _ hs
  | hidden _ hstep ih => exact hhidden _ _ _ ih hstep
  | event _ hstep ih => exact hevent _ _ _ _ ih hstep

/-- The steps of `C` are matched by steps of `A`. -/
structure Simulation (C : System E S) (A : System E T) (good : List E → Prop)
    (R : List E → S → T → Prop) : Prop where
  start : ∀ s, C.start s → ∃ t, A.start t ∧ R [] s t
  hidden : ∀ es s s' t, R es s t → C.step s none s' → R es s' t
  event : ∀ es s e s' t, good (es ++ [e]) → R es s t → C.step s (some e) s' →
    ∃ t', A.step t (some e) t' ∧ R (es ++ [e]) s' t'

/-- **The second system has the traces of the first.** -/
theorem Simulation.run {C : System E S} {A : System E T} {good : List E → Prop} {R : List E → S → T → Prop}
    (h : Simulation C A good R) (hgood : ∀ es e, good (es ++ [e]) → good es) {s : S} {es : List E}
    (hrun : C.Run s es) : good es → ∃ t, A.Run t es ∧ R es s t := by
  induction hrun with
  | start hs =>
      intro _
      obtain ⟨t, ht, hR⟩ := h.start _ hs
      exact ⟨t, .start ht, hR⟩
  | hidden _ hstep ih =>
      intro hes
      obtain ⟨t, ht, hR⟩ := ih hes
      exact ⟨t, ht, h.hidden _ _ _ _ hR hstep⟩
  | event _ hstep ih =>
      intro hes
      obtain ⟨t, ht, hR⟩ := ih (hgood _ _ hes)
      obtain ⟨t', ht', hR'⟩ := h.event _ _ _ _ _ hes hR hstep
      exact ⟨t', .event ht ht', hR'⟩

end System

/-- States that match the first `n` steps of a run, one after the other. -/
theorem exists_matching {S : Type} {R : ℕ → S → S → Prop} {I : ℕ → S → Prop} {s₀ : S} (hstart : I 0 s₀) {n : ℕ}
    (hstep : ∀ i < n, ∀ s, I i s → ∃ s', R i s s' ∧ I (i + 1) s') :
    ∃ f : ℕ → S, f 0 = s₀ ∧ (∀ i < n, R i (f i) (f (i + 1))) ∧ ∀ i ≤ n, I i (f i) := by
  induction n with
  | zero =>
      refine ⟨fun _ => s₀, rfl, fun i hi => absurd hi (Nat.not_lt_zero i), fun i hi => ?_⟩
      obtain rfl := Nat.le_zero.mp hi
      exact hstart
  | succ n ih =>
      obtain ⟨f, hzero, hR, hI⟩ := ih fun i hi => hstep i (Nat.lt_succ_of_lt hi)
      obtain ⟨s', hnext, hI'⟩ := hstep n (Nat.lt_succ_self n) (f n) (hI n (Nat.le_refl n))
      have hold : ∀ i ≤ n, Function.update f (n + 1) s' i = f i := fun i hi =>
        Function.update_of_ne (by omega) _ _
      have hnew : Function.update f (n + 1) s' (n + 1) = s' := Function.update_self _ _ _
      refine ⟨Function.update f (n + 1) s', (hold 0 (Nat.zero_le n)).trans hzero, fun i hi => ?_, fun i hi => ?_⟩
      · rw [hold i (Nat.le_of_lt_succ hi)]
        rcases Nat.lt_succ_iff_lt_or_eq.mp hi with hlt | rfl
        · rw [hold (i + 1) hlt]
          exact hR i hlt
        · rw [hnew]
          exact hnext
      · rcases Nat.le_succ_iff.mp hi with hle | rfl
        · rw [hold i hle]
          exact hI i hle
        · rw [hnew]
          exact hI'

end Effect
