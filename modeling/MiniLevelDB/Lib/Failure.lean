import MiniLevelDB.Lib.Lockstep

/-! # Failures as crashes

`Imitates d₁ d₂ C bad p R w₁ w₂` compares the executions of a program on a device `d₁` whose calls may fail with
those on a device `d₂` that may crash.  Where a crash of the program leaves only worlds in `C`, the program ends
on `d₁` with the value it has on `d₂`, in worlds with `R`, or it ends with a value and in a world that are `bad`.
The rules follow the program; a failed call comes to `bad` by the rules of `After`, with what the crashes inside
the call and before it leave known to be in `C`. -/

namespace Effect
namespace Prog

variable {Op : Type} {Res : Op → Type} {F W₁ W₂ α β : Type} {d₁ : Device Op Res W₁} {d₂ : Device Op Res W₂}

/-- On `d₁` the program ends as on `d₂`, or badly, when its crashes are in `C`. -/
def Imitates (d₁ : Device Op Res W₁) (d₂ : Device Op Res W₂) (C : W₂ → Prop) (bad : α → W₁ → Prop)
    (p : Prog Op Res F α) (R : α → W₁ → W₂ → Prop) (w₁ : W₁) (w₂ : W₂) : Prop :=
  (∀ w, p.Crash d₂ w₂ w → C w) →
    p.After d₁ (fun f => p.run d₂ w₂ = .fault f)
      (fun a w₁' => bad a w₁' ∨ ∃ w₂', p.run d₂ w₂ = .done a w₂' ∧ R a w₁' w₂') w₁

/-- A crash may come when the program is over. -/
theorem crash_of_run {p : Prog Op Res F α} {w w' : W₂} {a : α} (h : p.run d₂ w = .done a w') :
    p.Crash d₂ w w' := by
  rw [← bind_ret p]
  exact crash_of_bind_run d₂ h (.now _ w')

variable {C : W₂ → Prop} {bad : α → W₁ → Prop} {bad' : β → W₁ → Prop} {R : α → W₁ → W₂ → Prop}
  {R' : β → W₁ → W₂ → Prop} {w₁ w₁' : W₁} {w₂ w₂' : W₂}

theorem Imitates.mono {p : Prog Op Res F α} {R₁ : α → W₁ → W₂ → Prop}
    (h : p.Imitates d₁ d₂ C bad R w₁ w₂) (hR : ∀ a w₁ w₂, R a w₁ w₂ → R₁ a w₁ w₂) :
    p.Imitates d₁ d₂ C bad R₁ w₁ w₂ := by
  intro hC
  refine (h hC).mono (fun _ hf => hf) ?_
  rintro a w₁' (ha | ⟨w₂', hrun, hrest⟩)
  · exact Or.inl ha
  · exact Or.inr ⟨w₂', hrun, hR a w₁' w₂' hrest⟩

/-- **Failures are crashes**: a completed run on the failing device is a run on the other one, or it ends badly
where a crash might have left it. -/
theorem Imitates.done {p : Prog Op Res F α} {a : α} (h : p.Imitates d₁ d₂ (p.Crash d₂ w₂) bad R w₁ w₂)
    (hrun : p.run d₁ w₁ = .done a w₁') :
    bad a w₁' ∨ ∃ w₂', p.run d₂ w₂ = .done a w₂' ∧ R a w₁' w₂' := by
  have hafter := h fun _ hw => hw
  exact hafter.done hrun

end Prog
end Effect
