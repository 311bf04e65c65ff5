import Mathlib.Data.List.GetD
import Mathlib.Tactic

/-! # Singly linked chains

`Chain next x L`: starting at the node `x` and following `next`, the nodes visited are `L`, and the
last one has no successor.  `next_getLastD` reads a chain in the middle, `Chain.insertAfter` links a
new node in. -/

namespace Linked

variable {A : Type}

/-- Following `next` from `x` visits `L` and ends. -/
def Chain (next : A → Option A) : A → List A → Prop
  | x, [] => next x = none
  | x, y :: L => next x = some y ∧ Chain next y L

variable {next next' : A → Option A} {x n : A} {pre suf L : List A}

theorem Chain.head? (h : Chain next x L) : next x = L.head? := by
  cases L with
  | nil => exact h
  | cons y L => exact h.1

theorem Chain.right (h : Chain next x (pre ++ suf)) : Chain next (pre.getLastD x) suf := by
  induction pre generalizing x with
  | nil => exact h
  | cons y pre ih =>
      rw [List.getLastD_cons]
      exact ih h.2

/-- The last node of `x :: pre` is followed by the head of what comes behind. -/
theorem Chain.next_getLastD (h : Chain next x (pre ++ suf)) : next (pre.getLastD x) = suf.head? :=
  h.right.head?

/-- A chain depends on the successors of its own nodes only. -/
theorem Chain.congr (h : Chain next x L) (heq : ∀ y ∈ x :: L, next' y = next y) :
    Chain next' x L := by
  induction L generalizing x with
  | nil => exact (heq x List.mem_cons_self).trans h
  | cons y L ih =>
      exact ⟨(heq x List.mem_cons_self).trans h.1, ih h.2 fun z hz => heq z (List.mem_cons_of_mem _ hz)⟩

/-- A node linked in behind the last node of `x :: pre`. -/
theorem Chain.insertAfter (h : Chain next x (pre ++ suf)) (hnodup : (x :: (pre ++ suf)).Nodup)
    (hnew : n ∉ x :: (pre ++ suf)) (hlast : next' (pre.getLastD x) = some n)
    (hn : next' n = next (pre.getLastD x))
    (hother : ∀ y, y ≠ pre.getLastD x → y ≠ n → next' y = next y) :
    Chain next' x (pre ++ n :: suf) := by
  induction pre generalizing x with
  | nil =>
      refine ⟨hlast, ?_⟩
      have hx : next' n = suf.head? := hn.trans h.head?
      cases suf with
      | nil => exact hx
      | cons y suf =>
          refine ⟨hx, h.2.congr fun z hz => hother z ?_ ?_⟩
          · rintro rfl
            exact (List.nodup_cons.mp hnodup).1 hz
          · rintro rfl
            exact hnew (List.mem_cons_of_mem _ hz)
  | cons y pre ih =>
      rw [List.getLastD_cons] at hlast hn hother
      have hmem : pre.getLastD y ∈ y :: pre := List.getLastD_mem_cons
      have hne : x ≠ pre.getLastD y := by
        rintro rfl
        exact (List.nodup_cons.mp hnodup).1 (List.mem_append_left suf hmem)
      have hxn : x ≠ n := fun e => hnew (e ▸ List.mem_cons_self)
      refine ⟨(hother x hne hxn).trans h.1, ih h.2 (List.nodup_cons.mp hnodup).2 ?_ hlast hn hother⟩
      exact fun hn => hnew (List.mem_cons_of_mem _ hn)

end Linked
