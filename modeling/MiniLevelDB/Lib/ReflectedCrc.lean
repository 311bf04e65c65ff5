import Mathlib.Data.List.GetD
import Mathlib.Data.BitVec
import Mathlib.Logic.Function.Iterate

/-! # Reflected cyclic redundancy checks

A register of `w` bits takes a message bit by bit, lowest bit first: the bit is added to the low end
of the register, the register moves down by one, and the polynomial `p` is added whenever a one
falls out (`bitStep`, `feed`).

The step is linear over exclusive or, so `n` steps of a sum can be taken apart (`steps_xor`), which
is what a table-driven implementation rests on: `steps_of_agree` moves the high bits past the
table.  If the highest coefficient of `p` is set the step is one to one; then two messages of one
length that differ inside a window of `w` bits never leave the same register (`feed_burst`). -/

namespace ReflectedCrc

variable {w : ℕ} (p : BitVec w)

/-- One step of the division. -/
def bitStep (c : BitVec w) : BitVec w :=
  if c.getLsbD 0 then (c >>> 1) ^^^ p else c >>> 1

/-- A message bit at the low end of the register. -/
def bit (b : Bool) : BitVec w := (BitVec.ofBool b).setWidth w

/-- The register after the message. -/
def feed (c : BitVec w) (message : List Bool) : BitVec w :=
  message.foldl (fun c b => bitStep p (c ^^^ bit b)) c

/-- `n` steps without a message. -/
def steps : ℕ → BitVec w → BitVec w
  | 0, c => c
  | n + 1, c => steps n (bitStep p c)

/-! ### Linearity -/

theorem bitStep_of_low_clear {c : BitVec w} (h : c.getLsbD 0 = false) : bitStep p c = c >>> 1 := by
  simp [bitStep, h]

theorem bitStep_xor (a b : BitVec w) : bitStep p (a ^^^ b) = bitStep p a ^^^ bitStep p b := by
  unfold bitStep
  rw [BitVec.getLsbD_xor, BitVec.ushiftRight_xor_distrib]
  have hcancel : ∀ x y : BitVec w, x ^^^ p ^^^ (y ^^^ p) = x ^^^ y := by
    intro x y
    rw [BitVec.xor_assoc, BitVec.xor_comm y p, ← BitVec.xor_assoc p p y, BitVec.xor_self,
      BitVec.zero_xor]
  cases a.getLsbD 0 <;> cases b.getLsbD 0
  · simp
  · simp [BitVec.xor_assoc]
  · simp only [Bool.xor_false, if_true, Bool.false_eq_true, if_false]
    ac_rfl
  · simp [hcancel]

theorem steps_xor (n : ℕ) (a b : BitVec w) : steps p n (a ^^^ b) = steps p n a ^^^ steps p n b := by
  induction n generalizing a b with
  | zero => rfl
  | succ n ih => rw [steps, bitStep_xor, ih, steps, steps]

theorem steps_add (m n : ℕ) (c : BitVec w) : steps p (m + n) c = steps p n (steps p m c) := by
  induction m generalizing c with
  | zero => rw [Nat.zero_add, steps]
  | succ m ih => rw [Nat.succ_add, steps, ih, steps]

/-- Bits that are clear at the low end only move down. -/
theorem steps_of_low_clear {n : ℕ} {c : BitVec w} (h : ∀ i < n, c.getLsbD i = false) :
    steps p n c = c >>> n := by
  induction n generalizing c with
  | zero => rw [steps, BitVec.ushiftRight_zero]
  | succ n ih =>
      have hrest : ∀ i < n, (c >>> 1).getLsbD i = false := by
        intro i hi
        rw [BitVec.getLsbD_ushiftRight]
        exact h (1 + i) (by omega)
      rw [steps, bitStep_of_low_clear p (h 0 n.succ_pos), ih hrest, Nat.add_comm,
        BitVec.shiftRight_add]

/-- Registers that agree in the low `n` bits keep their difference, moved down, for `n` steps. -/
theorem steps_of_agree {n : ℕ} {c d : BitVec w} (h : ∀ i < n, c.getLsbD i = d.getLsbD i) :
    steps p n c = steps p n d ^^^ ((c ^^^ d) >>> n) := by
  have hclear : ∀ i < n, (c ^^^ d).getLsbD i = false := by
    intro i hi
    rw [BitVec.getLsbD_xor, h i hi, Bool.xor_self]
  rw [← steps_of_low_clear p hclear, ← steps_xor, BitVec.xor_comm c d, ← BitVec.xor_assoc,
    BitVec.xor_self, BitVec.zero_xor]

/-! ### Messages -/

@[simp] theorem feed_nil (c : BitVec w) : feed p c [] = c := rfl

@[simp] theorem feed_cons (c : BitVec w) (b : Bool) (bs : List Bool) :
    feed p c (b :: bs) = feed p (bitStep p (c ^^^ bit b)) bs := rfl

theorem feed_append (c : BitVec w) (xs ys : List Bool) :
    feed p c (xs ++ ys) = feed p (feed p c xs) ys :=
  List.foldl_append

/-- The message as a register, its first bit lowest. -/
def ofBits (bs : List Bool) : BitVec w := (BitVec.ofBoolListLE bs).setWidth w

theorem getLsbD_ofBits {i : ℕ} (bs : List Bool) (hi : i < w) :
    (ofBits bs : BitVec w).getLsbD i = bs.getD i false := by
  rw [ofBits, BitVec.getLsbD_setWidth, BitVec.getLsbD_ofBoolListLE]
  simp [hi]

theorem ofBits_cons (b : Bool) (bs : List Bool) (hw : bs.length < w) :
    (ofBits (b :: bs) ^^^ bit b) >>> 1 = (ofBits bs : BitVec w) := by
  apply BitVec.eq_of_getLsbD_eq
  intro i hi
  rw [BitVec.getLsbD_ushiftRight, BitVec.getLsbD_xor, getLsbD_ofBits bs hi]
  have hbit : (bit b : BitVec w).getLsbD (1 + i) = false := by
    rw [bit, BitVec.getLsbD_setWidth, BitVec.getLsbD_of_ge _ _ (Nat.le_add_right 1 i), Bool.and_false]
  rw [hbit, Bool.xor_false]
  by_cases h : 1 + i < w
  · rw [getLsbD_ofBits _ h, Nat.add_comm 1 i, List.getD_cons_succ]
  · rw [BitVec.getLsbD_of_ge _ _ (not_lt.mp h), List.getD_eq_default _ _ (by omega)]

/-- A message that fits the register may be added to it at once. -/
theorem feed_eq_steps (c : BitVec w) {bs : List Bool} (h : bs.length ≤ w) :
    feed p c bs = steps p bs.length (c ^^^ ofBits bs) := by
  induction bs generalizing c with
  | nil =>
      have hzero : (ofBits [] : BitVec w) = 0#w := by
        apply BitVec.eq_of_getLsbD_eq
        intro i hi
        rw [getLsbD_ofBits _ hi, BitVec.getLsbD_zero, List.getD_nil]
      rw [feed_nil, hzero, BitVec.xor_zero, List.length_nil, steps]
  | cons b bs ih =>
      have hlow : (ofBits (b :: bs) ^^^ bit b : BitVec w).getLsbD 0 = false := by
        rw [BitVec.getLsbD_xor, getLsbD_ofBits _ (by rw [List.length_cons] at h; omega),
          List.getD_cons_zero, bit, BitVec.getLsbD_setWidth, BitVec.getLsbD_ofBool]
        rw [List.length_cons] at h
        simp [Nat.lt_of_succ_le ((Nat.le_add_left 1 bs.length).trans h)]
      have hstep : bitStep p (c ^^^ ofBits (b :: bs)) = bitStep p (c ^^^ bit b) ^^^ ofBits bs := by
        rw [← ofBits_cons b bs h, ← bitStep_of_low_clear p hlow, ← bitStep_xor,
          BitVec.xor_comm (ofBits (b :: bs)), BitVec.xor_assoc, ← BitVec.xor_assoc (bit b),
          BitVec.xor_self, BitVec.zero_xor]
      rw [feed_cons, ih _ ((Nat.le_succ _).trans h), List.length_cons, steps, hstep]

theorem ofBits_injective {xs ys : List Bool} (hlen : xs.length = ys.length) (hw : xs.length ≤ w)
    (h : (ofBits xs : BitVec w) = ofBits ys) : xs = ys := by
  apply List.ext_getElem hlen
  intro i hx hy
  have hi := congrArg (fun c : BitVec w => c.getLsbD i) h
  simp only [getLsbD_ofBits _ (hx.trans_le hw)] at hi
  rwa [List.getD_eq_getElem _ _ hx, List.getD_eq_getElem _ _ hy] at hi

/-! ### Detected changes -/

/-- When the highest coefficient is set, the bit that falls out can be read off the result. -/
theorem bitStep_eq_zero {c : BitVec w} (hp : p.msb = true) (h : bitStep p c = 0#w) : c = 0#w := by
  by_cases hlow : c.getLsbD 0
  · have hpoly : c >>> 1 = p := by
      rw [bitStep, if_pos hlow] at h
      rwa [BitVec.xor_eq_zero_iff] at h
    rw [← hpoly, BitVec.msb_eq_getLsbD_last, BitVec.getLsbD_ushiftRight] at hp
    rw [BitVec.getLsbD_of_ge _ _ (by omega)] at hp
    cases hp
  · rw [bitStep, if_neg hlow] at h
    apply BitVec.eq_of_getLsbD_eq
    intro i hi
    rw [BitVec.getLsbD_zero]
    cases i with
    | zero => simpa using hlow
    | succ i =>
        have hbit := congrArg (fun c : BitVec w => c.getLsbD i) h
        simpa [Nat.add_comm] using hbit

theorem steps_injective (hp : p.msb = true) (n : ℕ) : Function.Injective (steps p n) := by
  have hone : Function.Injective (bitStep p) := by
    intro a b h
    rw [← BitVec.xor_eq_zero_iff, ← bitStep_xor] at h
    exact BitVec.xor_eq_zero_iff.mp (bitStep_eq_zero p hp h)
  induction n with
  | zero => exact fun _ _ h => h
  | succ n ih => exact ih.comp hone

theorem feed_injective (hp : p.msb = true) (bs : List Bool) :
    Function.Injective fun c : BitVec w => feed p c bs := by
  intro a b h
  induction bs generalizing a b with
  | nil => exact h
  | cons x bs ih =>
      have hstep : bitStep p (a ^^^ bit x) = bitStep p (b ^^^ bit x) := ih h
      exact (BitVec.xor_left_inj (bit x)).mp (steps_injective p hp 1 hstep)

/-- **A burst of at most `w` bits is detected**, wherever it lies in the message. -/
theorem feed_burst (hp : p.msb = true) (c : BitVec w) {pre xs ys post : List Bool}
    (hlen : xs.length = ys.length) (hw : xs.length ≤ w) (hne : xs ≠ ys) :
    feed p c (pre ++ (xs ++ post)) ≠ feed p c (pre ++ (ys ++ post)) := by
  intro h
  rw [feed_append, feed_append, feed_append p c, feed_append p _ ys] at h
  have hwindow : feed p (feed p c pre) xs = feed p (feed p c pre) ys := feed_injective p hp post h
  generalize feed p c pre = c at hwindow
  rw [feed_eq_steps p _ hw, feed_eq_steps p _ (hlen.ge.trans hw), ← hlen] at hwindow
  have hsum := steps_injective p hp _ hwindow
  exact hne (ofBits_injective hlen hw ((BitVec.xor_right_inj _).mp hsum))

end ReflectedCrc
