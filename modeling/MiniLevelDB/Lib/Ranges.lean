import Mathlib.Tactic
import Mathlib.Order.Interval.Finset.Nat

/-! # Ranges of addresses

`Range` is a start and a size.  Ranges that are pairwise apart and lie in one range have no more room
than it (`sum_size_le`). -/

namespace Memory

/-- The addresses from `start` on. -/
structure Range where
  start : ℕ
  size : ℕ
deriving DecidableEq, Repr

namespace Range

/-- The address behind the range. -/
def stop (r : Range) : ℕ := r.start + r.size

/-- One of the ranges ends before the other starts. -/
def Apart (r s : Range) : Prop := r.stop ≤ s.start ∨ s.stop ≤ r.start

/-- The one range lies in the other. -/
def Within (r s : Range) : Prop := s.start ≤ r.start ∧ r.stop ≤ s.stop

instance (r s : Range) : Decidable (r.Apart s) := inferInstanceAs (Decidable (_ ∨ _))

instance (r s : Range) : Decidable (r.Within s) := inferInstanceAs (Decidable (_ ∧ _))

variable {r r' s s' : Range}

theorem Apart.symm (h : r.Apart s) : s.Apart r := Or.symm h

theorem Within.refl (r : Range) : r.Within r := ⟨le_refl _, le_refl _⟩

theorem Within.trans (h : r.Within r') (h' : r'.Within s) : r.Within s :=
  ⟨h'.1.trans h.1, h.2.trans h'.2⟩

/-- Parts of ranges that are apart are apart. -/
theorem Apart.mono (h : r.Apart s) (hr : r'.Within r) (hs : s'.Within s) : r'.Apart s' := by
  rcases h with h | h
  · exact Or.inl (hr.2.trans (h.trans hs.1))
  · exact Or.inr (hs.2.trans (h.trans hr.1))

/-- The addresses of a range. -/
def cells (r : Range) : Finset ℕ := Finset.Ico r.start r.stop

theorem card_cells (r : Range) : r.cells.card = r.size := by
  rw [cells, Nat.card_Ico, stop, Nat.add_sub_cancel_left]

theorem Apart.disjoint (h : r.Apart s) : Disjoint r.cells s.cells := by
  rw [Finset.disjoint_left]
  intro x hr hs
  rw [cells, Finset.mem_Ico] at hr hs
  rcases h with h | h
  · omega
  · omega

theorem Within.cells_subset (h : r.Within s) : r.cells ⊆ s.cells := Finset.Ico_subset_Ico h.1 h.2

/-- **Ranges that are apart take at most the room there is.** -/
theorem sum_size_le {rs : List Range} {whole : Range} (hapart : rs.Pairwise Apart)
    (hwithin : ∀ r ∈ rs, r.Within whole) : (rs.map size).sum ≤ whole.size := by
  have hcells : ∃ cs : Finset ℕ, cs ⊆ whole.cells ∧ cs.card = (rs.map size).sum ∧
      ∀ x ∈ cs, ∃ r ∈ rs, x ∈ r.cells := by
    induction rs with
    | nil => exact ⟨∅, Finset.empty_subset _, rfl, fun x hx => absurd hx (Finset.notMem_empty x)⟩
    | cons r rs ih =>
        obtain ⟨hr, hrest⟩ := List.pairwise_cons.mp hapart
        obtain ⟨cs, hsub, hcard, hmem⟩ := ih hrest fun s hs => hwithin s (List.mem_cons_of_mem _ hs)
        have hdisjoint : Disjoint r.cells cs := by
          rw [Finset.disjoint_left]
          intro x hx hxs
          obtain ⟨s, hs, hxs⟩ := hmem x hxs
          exact Finset.disjoint_left.mp (hr s hs).disjoint hx hxs
        refine ⟨r.cells ∪ cs, ?_, ?_, ?_⟩
        · exact Finset.union_subset (hwithin r List.mem_cons_self).cells_subset hsub
        · rw [Finset.card_union_of_disjoint hdisjoint, card_cells, hcard, List.map_cons, List.sum_cons]
        · intro x hx
          rcases Finset.mem_union.mp hx with hx | hx
          · exact ⟨r, List.mem_cons_self, hx⟩
          · obtain ⟨s, hs, hxs⟩ := hmem x hx
            exact ⟨s, List.mem_cons_of_mem _ hs, hxs⟩
  obtain ⟨cs, hsub, hcard, -⟩ := hcells
  rw [← hcard, ← card_cells whole]
  exact Finset.card_le_card hsub

end Range

end Memory
