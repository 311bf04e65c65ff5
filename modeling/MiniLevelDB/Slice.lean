import MiniLevelDB.Lib.ListOrder

/-! # Byte strings and slices

A `std::string` and the range behind a `Slice` are byte strings, `Bytes`; `remove_prefix` is
`List.drop`.  `Slice.compare` is the code's comparison (`memcmp` over the shorter length, then
the lengths); `compare_neg_iff` and `compare_eq_zero_iff` say that it is the lexicographic order
of byte strings.

A `Fault` is what the C++ code does not survive with a defined result: a read outside the object
it is made on, a `resize` past the maximal size, a call through a null pointer. -/

namespace MiniLevelDB

/-- The contents of a `std::string`, or of the range behind a `Slice`. -/
abbrev Bytes := List UInt8

/-- Executions without a defined result. -/
inductive Fault where
  | outOfBounds
  | lengthError
  | nullDeref
deriving DecidableEq, Repr

instance instLinearOrderUInt8 : LinearOrder UInt8 where
  le_refl a := UInt8.le_refl a
  le_trans a b c := UInt8.le_trans
  le_antisymm a b := UInt8.le_antisymm
  le_total a b := UInt8.le_total a b
  lt_iff_le_not_ge a b := by
    simp only [UInt8.lt_iff_toNat_lt, UInt8.le_iff_toNat_le]
    omega
  toDecidableLE := inferInstance
  toDecidableEq := inferInstance
  toDecidableLT := inferInstance

/-- The bytes of an ASCII text. -/
def ascii (s : String) : Bytes := s.toList.map (fun c => UInt8.ofNat c.toNat)

/-- `std::memcmp` over the first `n` bytes. -/
def memcmp : ℕ → Bytes → Bytes → Int
  | n + 1, x :: xs, y :: ys => if x < y then -1 else if y < x then 1 else memcmp n xs ys
  | _, _, _ => 0

namespace Slice

/-- `Slice::compare`. -/
def compare (a b : Bytes) : Int :=
  let min_len := min a.length b.length
  let r := memcmp min_len a b
  if r ≠ 0 then r
  else if a.length < b.length then -1
  else if a.length > b.length then 1
  else 0

@[simp] theorem compare_nil_nil : compare [] [] = 0 := rfl

theorem compare_nil_cons (y : UInt8) (ys : Bytes) : compare [] (y :: ys) = -1 := by
  simp [compare, memcmp]

theorem compare_cons_nil (x : UInt8) (xs : Bytes) : compare (x :: xs) [] = 1 := by
  simp [compare, memcmp]

theorem compare_cons_cons (x y : UInt8) (xs ys : Bytes) :
    compare (x :: xs) (y :: ys) =
      if x < y then -1 else if y < x then 1 else compare xs ys := by
  simp only [compare, List.length_cons, Nat.add_min_add_right, memcmp]
  split_ifs <;> first | rfl | omega

/-- `compare` is negative exactly below in the lexicographic order. -/
theorem compare_neg_iff (a b : Bytes) : compare a b < 0 ↔ a < b := by
  induction a generalizing b with
  | nil =>
      cases b with
      | nil => simp
      | cons y ys => simp [compare_nil_cons]
  | cons x xs ih =>
      cases b with
      | nil => simp [compare_cons_nil]
      | cons y ys =>
          rw [compare_cons_cons, List.cons_lt_cons_iff, ← ih ys]
          split_ifs with h1 h2
          · simp [h1]
          · have hne : x ≠ y := ne_of_gt h2
            simp [h1, hne]
          · have heq : x = y := le_antisymm (not_lt.mp h2) (not_lt.mp h1)
            simp [heq]

theorem compare_eq_zero_iff (a b : Bytes) : compare a b = 0 ↔ a = b := by
  induction a generalizing b with
  | nil =>
      cases b with
      | nil => simp
      | cons y ys => simp [compare_nil_cons]
  | cons x xs ih =>
      cases b with
      | nil => simp [compare_cons_nil]
      | cons y ys =>
          rw [compare_cons_cons, List.cons.injEq, ← ih ys]
          split_ifs with h1 h2
          · simp [ne_of_lt h1]
          · simp [ne_of_gt h2]
          · have heq : x = y := le_antisymm (not_lt.mp h2) (not_lt.mp h1)
            simp [heq]

end Slice
end MiniLevelDB
