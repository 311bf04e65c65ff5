import Mathlib.Algebra.Ring.Parity
import Mathlib.Data.Nat.Prime.Basic
import Mathlib.Dynamics.PeriodicPts.Defs
import MiniLevelDB.Lib.ReflectedCrc

/-! # How many flipped bits a cyclic redundancy check detects

Two messages of one length leave registers that differ by what the check makes of their difference
(`feed_xor`).  If the polynomial has an odd number of coefficients the parity of the register is that of the
message (`parity_feed`), so an odd number of flipped bits is seen.  Two flipped bits are seen unless the
register of one bit comes back to itself in the steps between them (`feed_two`); a prime number of steps after
which it does is the first one (`steps_eq_one_iff`), and squaring finds what the register is after `2 ^ k` steps
(`steps_two_pow`). -/

namespace ReflectedCrc

variable {w : ℕ} (p : BitVec w)

/-- The bits in which two messages differ. -/
def diff (xs ys : List Bool) : List Bool := List.zipWith xor xs ys

/-- Whether the number of ones is odd. -/
def odd (bs : List Bool) : Bool := bs.foldr xor false

/-! ### Differences -/

theorem bit_xor (x y : Bool) : (bit x ^^^ bit y : BitVec w) = bit (xor x y) := by
  have hzero : (bit false : BitVec w) = 0#w := by
    apply BitVec.eq_of_getLsbD_eq
    intro i hi
    simp [bit]
  cases x <;> cases y
  · rw [hzero, BitVec.xor_zero, Bool.xor_false, hzero]
  · rw [hzero, BitVec.zero_xor, Bool.false_xor]
  · rw [hzero, BitVec.xor_zero, Bool.xor_false]
  · rw [BitVec.xor_self, Bool.xor_self, hzero]

theorem feed_xor (c d : BitVec w) {xs ys : List Bool} (hlen : xs.length = ys.length) :
    feed p c xs ^^^ feed p d ys = feed p (c ^^^ d) (diff xs ys) := by
  induction xs generalizing ys c d with
  | nil =>
      obtain rfl := List.eq_nil_of_length_eq_zero hlen.symm
      rfl
  | cons x xs ih =>
      cases ys with
      | nil => cases hlen
      | cons y ys =>
          have hstep : c ^^^ bit x ^^^ (d ^^^ bit y) = c ^^^ d ^^^ bit (xor x y) := by
            rw [← bit_xor]
            ac_rfl
          rw [feed_cons, feed_cons, ih _ _ (Nat.succ.inj hlen), ← bitStep_xor, hstep]
          rfl

/-- A change goes unseen when its bits alone leave the register empty. -/
theorem feed_eq_iff (c : BitVec w) {xs ys : List Bool} (hlen : xs.length = ys.length) :
    feed p c xs = feed p c ys ↔ feed p 0#w (diff xs ys) = 0#w := by
  rw [← BitVec.xor_eq_zero_iff, feed_xor p c c hlen, BitVec.xor_self]

/-! ### An odd number of bits -/

@[simp] theorem odd_nil : odd [] = false := rfl

@[simp] theorem odd_cons (b : Bool) (bs : List Bool) : odd (b :: bs) = xor b (odd bs) := rfl

theorem odd_append (xs ys : List Bool) : odd (xs ++ ys) = xor (odd xs) (odd ys) := by
  induction xs with
  | nil => rw [List.nil_append, odd_nil, Bool.false_xor]
  | cons x xs ih => rw [List.cons_append, odd_cons, ih, odd_cons, Bool.xor_assoc]

theorem odd_eq_true_iff (bs : List Bool) : odd bs = true ↔ Odd (bs.count true) := by
  induction bs with
  | nil => simp
  | cons b bs ih =>
      cases b with
      | false => simpa using ih
      | true =>
          rw [odd_cons, List.count_cons_self, Nat.odd_add_one, ← ih]
          simp

/-- The parity of the register. -/
def parity (c : BitVec w) : Bool := odd ((List.range w).map c.getLsbD)

theorem parity_xor (a b : BitVec w) : parity (a ^^^ b) = xor (parity a) (parity b) := by
  unfold parity
  induction List.range w with
  | nil => rfl
  | cons i l ih =>
      rw [List.map_cons, List.map_cons, List.map_cons, odd_cons, odd_cons, odd_cons, ih, BitVec.getLsbD_xor,
        Bool.xor_assoc, Bool.xor_assoc, Bool.xor_left_comm (b.getLsbD i)]

theorem parity_eq (c : BitVec w) : parity c = xor (c.getLsbD 0) (parity (c >>> 1)) := by
  cases w with
  | zero =>
      rw [BitVec.getLsbD_of_ge c 0 (le_refl 0)]
      rfl
  | succ w =>
      have hrest : (List.range w).map (c >>> 1).getLsbD = (List.range w).map (c.getLsbD ∘ Nat.succ) :=
        List.map_congr_left fun i _ => by
          rw [BitVec.getLsbD_ushiftRight, Nat.add_comm 1 i]
          rfl
      have hlast : (c >>> 1).getLsbD w = false := by
        rw [BitVec.getLsbD_ushiftRight, BitVec.getLsbD_of_ge _ _ (by omega)]
      rw [parity, List.range_succ_eq_map, List.map_cons, List.map_map, odd_cons, ← hrest, parity,
        List.range_succ, List.map_append, odd_append, List.map_singleton, hlast, odd_cons, odd_nil,
        Bool.xor_false, Bool.xor_false]

theorem parity_zero : parity 0#w = false := by
  unfold parity
  induction List.range w with
  | nil => rfl
  | cons i l ih => rw [List.map_cons, odd_cons, ih, BitVec.getLsbD_zero, Bool.xor_false]

theorem parity_bit (hw : 0 < w) (b : Bool) : parity (bit b : BitVec w) = b := by
  have hrest : (bit b : BitVec w) >>> 1 = 0#w := by
    apply BitVec.eq_of_getLsbD_eq
    intro i hi
    rw [BitVec.getLsbD_ushiftRight, bit, BitVec.getLsbD_setWidth, BitVec.getLsbD_of_ge _ _ (by omega),
      Bool.and_false, BitVec.getLsbD_zero]
  rw [parity_eq, hrest, parity_zero, Bool.xor_false, bit, BitVec.getLsbD_setWidth]
  simp [hw]

/-- The bit that falls out is made up for by the polynomial. -/
theorem parity_bitStep (hp : parity p = true) (c : BitVec w) : parity (bitStep p c) = parity c := by
  rw [parity_eq c, bitStep]
  by_cases hlow : c.getLsbD 0 = true
  · rw [if_pos hlow, parity_xor, hp, hlow, Bool.xor_comm]
  · rw [if_neg hlow, Bool.eq_false_of_not_eq_true hlow, Bool.false_xor]

theorem parity_feed (hp : parity p = true) (hw : 0 < w) (c : BitVec w) (bs : List Bool) :
    parity (feed p c bs) = xor (parity c) (odd bs) := by
  induction bs generalizing c with
  | nil => rw [feed_nil, odd_nil, Bool.xor_false]
  | cons b bs ih =>
      rw [feed_cons, ih, parity_bitStep p hp, parity_xor, parity_bit hw, odd_cons, Bool.xor_assoc]

/-! ### Two bits -/

theorem bitStep_zero : bitStep p 0#w = 0#w := by
  simp [bitStep]

theorem steps_zero (n : ℕ) : steps p n 0#w = 0#w := by
  induction n with
  | zero => rfl
  | succ n ih => rw [steps, bitStep_zero, ih]

theorem feed_replicate_false (c : BitVec w) (n : ℕ) : feed p c (List.replicate n false) = steps p n c := by
  induction n generalizing c with
  | zero => rfl
  | succ n ih =>
      have hbit : c ^^^ bit false = c := by
        have hzero : (bit false : BitVec w) = 0#w := by simp [bit]
        rw [hzero, BitVec.xor_zero]
      rw [List.replicate_succ, feed_cons, ih, hbit, steps]

/-- The first one of a message that has one. -/
theorem exists_first {bs : List Bool} {n : ℕ} (h : bs.count true = n + 1) :
    ∃ i rest, bs = List.replicate i false ++ true :: rest ∧ rest.count true = n := by
  induction bs with
  | nil => cases h
  | cons b bs ih =>
      cases b with
      | true => exact ⟨0, bs, rfl, Nat.succ.inj (by rwa [List.count_cons_self] at h)⟩
      | false =>
          obtain ⟨i, rest, rfl, hrest⟩ := ih (by simpa using h)
          exact ⟨i + 1, rest, rfl, hrest⟩

/-- Two bits go unseen when one of them comes back to itself in the steps between them. -/
theorem feed_two (hp : p.msb = true) {bs : List Bool} (h : bs.count true = 2) (hzero : feed p 0#w bs = 0#w) :
    ∃ n, 0 < n ∧ n < bs.length ∧ steps p n (bit true) = bit true := by
  obtain ⟨i, rest, rfl, hrest⟩ := exists_first h
  obtain ⟨d, last, rfl, hlast⟩ := exists_first hrest
  have hend : last = List.replicate last.length false := by
    rw [List.eq_replicate_iff]
    refine ⟨rfl, fun b hb => ?_⟩
    by_contra hb'
    obtain rfl := Bool.eq_true_of_not_eq_false hb'
    exact absurd hb (List.count_eq_zero.mp hlast)
  refine ⟨d + 1, Nat.succ_pos d, ?_, ?_⟩
  · simp only [List.length_append, List.length_replicate, List.length_cons]
    omega
  · rw [hend, feed_append, feed_replicate_false, steps_zero, feed_cons, BitVec.zero_xor, feed_append,
      feed_replicate_false, feed_cons, feed_replicate_false] at hzero
    have hregister := steps_injective p hp _ (hzero.trans (steps_zero p _).symm)
    exact BitVec.xor_eq_zero_iff.mp (bitStep_eq_zero p hp hregister)

/-- **What is detected**: an odd number of flipped bits, and two of them before the register of one bit comes
back to itself. -/
theorem feed_flips (hp : p.msb = true) (hparity : parity p = true) (hw : 0 < w) {period : ℕ}
    (hperiod : ∀ n, 0 < n → n < period → steps p n (bit true) ≠ bit true) (c : BitVec w)
    {xs ys : List Bool} (hlen : xs.length = ys.length)
    (hflips : Odd ((diff xs ys).count true) ∨ (diff xs ys).count true = 2 ∧ xs.length ≤ period) :
    feed p c xs ≠ feed p c ys := by
  rw [Ne, feed_eq_iff p c hlen]
  intro hzero
  rcases hflips with hodd | ⟨htwo, hle⟩
  · have hregister := parity_feed p hparity hw 0#w (diff xs ys)
    rw [hzero, parity_zero, Bool.false_xor, (odd_eq_true_iff _).mpr hodd] at hregister
    cases hregister
  · obtain ⟨n, hpos, hlt, hsteps⟩ := feed_two p hp htwo hzero
    rw [diff, List.length_zipWith, ← hlen, min_self] at hlt
    exact hperiod n hpos (hlt.trans_le hle) hsteps

/-! ### Coming back -/

/-- The register of the polynomial that is constantly one. -/
def one : BitVec w := BitVec.twoPow w (w - 1)

/-- The product by the `n` lowest bits of `a`, which are its coefficients from the highest power down. -/
def times : ℕ → BitVec w → BitVec w → BitVec w
  | 0, _, _ => 0#w
  | n + 1, a, b => (if a.getLsbD n then b else 0#w) ^^^ times n a (bitStep p b)

/-- The register of the polynomial that is constantly one after `2 ^ k` steps, by squaring. -/
def power : ℕ → BitVec w
  | 0 => bitStep p one
  | k + 1 => times p w (power k) (power k)

theorem steps_succ (n : ℕ) (c : BitVec w) : steps p (n + 1) c = bitStep p (steps p n c) := by
  rw [steps_add]
  rfl

theorem steps_eq_iterate (n : ℕ) (c : BitVec w) : steps p n c = (bitStep p)^[n] c := by
  induction n generalizing c with
  | zero => rfl
  | succ n ih => rw [steps, ih, Function.iterate_succ_apply]

theorem steps_times (m n : ℕ) (a b : BitVec w) : steps p m (times p n a b) = times p n a (steps p m b) := by
  induction n generalizing b with
  | zero => exact steps_zero p m
  | succ n ih =>
      rw [times, steps_xor, ih, times, ← steps_succ, steps]
      congr 1
      split_ifs
      · rfl
      · exact steps_zero p m

theorem bitStep_twoPow {n : ℕ} (hn : n + 1 < w) : bitStep p (BitVec.twoPow w (n + 1)) = BitVec.twoPow w n := by
  rw [bitStep_of_low_clear]
  · apply BitVec.eq_of_getLsbD_eq
    intro i hi
    rw [BitVec.getLsbD_ushiftRight, BitVec.getLsbD_twoPow, BitVec.getLsbD_twoPow, decide_eq_true hn,
      decide_eq_true (show n < w by omega), Nat.add_comm 1 i]
    simp
  · rw [BitVec.getLsbD_twoPow]
    simp

theorem getLsbD_times_twoPow (a : BitVec w) {n : ℕ} (hn : n ≤ w) (i : ℕ) :
    (times p n a (BitVec.twoPow w (n - 1))).getLsbD i = (decide (i < n) && a.getLsbD i) := by
  induction n with
  | zero => simp [times]
  | succ n ih =>
      have hhead : (if a.getLsbD n then BitVec.twoPow w n else 0#w).getLsbD i =
          (decide (n = i) && a.getLsbD i) := by
        by_cases hi : n = i
        · subst hi
          cases h : a.getLsbD n
          · simp
          · rw [if_pos rfl, BitVec.getLsbD_twoPow]
            simp [show n < w by omega]
        · split_ifs
          · rw [BitVec.getLsbD_twoPow]
            simp [hi]
          · simp [hi]
      have hrest : (times p n a (bitStep p (BitVec.twoPow w n))).getLsbD i =
          (decide (i < n) && a.getLsbD i) := by
        cases n with
        | zero => simp [times]
        | succ m =>
            rw [bitStep_twoPow p hn]
            exact ih (by omega)
      rw [Nat.add_sub_cancel, times, BitVec.getLsbD_xor, hhead, hrest]
      rcases lt_trichotomy i n with hi | rfl | hi
      · simp [hi, hi.ne', hi.trans (Nat.lt_succ_self n)]
      · simp
      · simp [hi.ne, hi.not_gt, show ¬ i < n + 1 by omega]

theorem times_one (a : BitVec w) : times p w a one = a := by
  apply BitVec.eq_of_getLsbD_eq
  intro i hi
  rw [one, getLsbD_times_twoPow p a (le_refl w), decide_eq_true hi, Bool.true_and]

theorem steps_two_pow (k : ℕ) : steps p (2 ^ k) one = power p k := by
  induction k with
  | zero => rfl
  | succ k ih =>
      calc steps p (2 ^ (k + 1)) one = steps p (2 ^ k) (steps p (2 ^ k) one) := by
            rw [pow_succ, Nat.mul_two, steps_add]
        _ = steps p (2 ^ k) (times p w (power p k) one) := by rw [ih, times_one]
        _ = power p (k + 1) := by rw [steps_times, ih, power]

/-- A prime number of steps back to the same register divides all such numbers. -/
theorem steps_eq_one_iff {period : ℕ} (hprime : period.Prime) (hback : steps p period one = one)
    (hstep : bitStep p one ≠ one) (n : ℕ) : steps p n one = one ↔ period ∣ n := by
  have hpoint : Function.IsPeriodicPt (bitStep p) period one := by
    rw [Function.IsPeriodicPt, Function.IsFixedPt, ← steps_eq_iterate, hback]
  have hminimal : Function.minimalPeriod (bitStep p) one = period := by
    refine (hprime.eq_one_or_self_of_dvd _ hpoint.minimalPeriod_dvd).resolve_left fun hone => hstep ?_
    exact Function.minimalPeriod_eq_one_iff_isFixedPt.mp hone
  rw [steps_eq_iterate, ← hminimal, ← Function.isPeriodicPt_iff_minimalPeriod_dvd]
  rfl

end ReflectedCrc
