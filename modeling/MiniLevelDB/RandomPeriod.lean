import Mathlib.NumberTheory.LucasPrimality
import Mathlib.Tactic.ReduceModChar
import MiniLevelDB.Random

/-! # The period of the random numbers

The comment on `Random` gives it the period `2 ^ 31 - 2`.  The factor generates the multiplicative group modulo
`2 ^ 31 - 1` (`orderOf_factor`), so from every seed the states run through all the proper ones before the first
comes again (`after_eq_iff`). -/

namespace MiniLevelDB
namespace Random

/-- The factor modulo `2 ^ 31 - 1`. -/
def factor : ZMod 2147483647 := 16807

theorem factor_pow : factor ^ (2147483647 - 1) = 1 := by
  norm_num only [factor]
  reduce_mod_char

/-- The primes that divide the period. -/
theorem mem_primes {q : ℕ} (hq : q.Prime) (h : q ∣ 2147483647 - 1) : q ∈ [2, 3, 7, 11, 31, 151, 331] := by
  have hprod : 2147483647 - 1 = [2, 3, 3, 7, 11, 31, 151, 331].prod := by norm_num
  have hprimes : ∀ a ∈ [2, 3, 3, 7, 11, 31, 151, 331], Nat.Prime a := by
    simp only [List.forall_mem_cons]
    norm_num
  rw [hprod, hq.prime.dvd_prod_iff] at h
  obtain ⟨a, ha, hdvd⟩ := h
  rw [(Nat.prime_dvd_prime_iff_eq hq (hprimes a ha)).mp hdvd]
  simpa using ha

theorem factor_pow_div_ne {q : ℕ} (hq : q.Prime) (h : q ∣ 2147483647 - 1) :
    factor ^ ((2147483647 - 1) / q) ≠ 1 := by
  have hmem := mem_primes hq h
  simp only [List.mem_cons, List.not_mem_nil, or_false] at hmem
  rcases hmem with rfl | rfl | rfl | rfl | rfl | rfl | rfl
  all_goals
    norm_num only [factor]
    reduce_mod_char
    decide

theorem prime_modulus : Nat.Prime 2147483647 :=
  lucas_primality _ factor factor_pow fun _ hq hdvd => factor_pow_div_ne hq hdvd

theorem orderOf_factor : orderOf factor = 2147483647 - 1 :=
  orderOf_eq_of_pow_and_pow_div_prime (by norm_num) factor_pow fun _ hq hdvd => factor_pow_div_ne hq hdvd

instance : Fact (Nat.Prime 2147483647) := ⟨prime_modulus⟩

/-! ### States modulo the modulus -/

/-- A state as a residue. -/
def residue (r : Random) : ZMod 2147483647 := r.seed.toNat

theorem residue_ne_zero {r : Random} (h : r.Proper) : r.residue ≠ 0 := by
  rw [residue, Ne, ZMod.natCast_eq_zero_iff]
  intro hdvd
  have hle := Nat.le_of_dvd h.1 hdvd
  have hlt := h.2
  omega

theorem residue_inj {r r' : Random} (h : r.Proper) (h' : r'.Proper) (heq : r.residue = r'.residue) :
    r = r' := by
  have hlt : r.seed.toNat < 2147483647 := h.2.trans_lt (by norm_num)
  have hlt' : r'.seed.toNat < 2147483647 := h'.2.trans_lt (by norm_num)
  rw [residue, residue, ZMod.natCast_eq_natCast_iff', Nat.mod_eq_of_lt hlt, Nat.mod_eq_of_lt hlt'] at heq
  obtain ⟨seed⟩ := r
  obtain ⟨seed'⟩ := r'
  exact congrArg Random.mk (UInt32.toNat_inj.mp heq)

theorem residue_after (s : UInt32) (n : ℕ) : (after s n).residue = factor ^ n * (new s).residue := by
  induction n with
  | zero => rw [pow_zero, one_mul]; rfl
  | succ n ih =>
      have hstep : after s (n + 1) = (after s n).next.2 := by
        rw [after, Function.iterate_succ_apply', ← after]
      have hnext : (after s n).next.2.seed.toNat = _ := next_toNat (proper_after s n)
      rw [residue, hstep, hnext, show (2 ^ 31 - 1 : ℕ) = 2147483647 by norm_num, ZMod.natCast_mod, Nat.cast_mul,
        pow_succ', mul_assoc, ← ih]
      rfl

theorem factor_pow_eq_iff (n m : ℕ) : factor ^ n = factor ^ m ↔ n ≡ m [MOD 2147483647 - 1] := by
  have hne : factor ≠ 0 := by
    intro hzero
    have hpow := factor_pow
    rw [hzero, zero_pow (by norm_num)] at hpow
    exact zero_ne_one hpow
  have horder : orderOf (Units.mk0 factor hne) = 2147483647 - 1 := by
    rw [← orderOf_units, Units.val_mk0, orderOf_factor]
  rw [← horder, ← pow_eq_pow_iff_modEq, ← Units.val_inj, Units.val_pow_eq_pow_val, Units.val_pow_eq_pow_val,
    Units.val_mk0]

/-- Each nonzero residue is a power of the factor. -/
theorem exists_pow_factor {x : ZMod 2147483647} (hx : x ≠ 0) : ∃ n < 2147483647 - 1, factor ^ n = x := by
  have hroot : IsPrimitiveRoot factor (2147483647 - 1) := by
    rw [← orderOf_factor]
    exact IsPrimitiveRoot.orderOf factor
  have : NeZero (2147483647 - 1) := ⟨by norm_num⟩
  exact hroot.eq_pow_of_pow_eq_one (ZMod.pow_card_sub_one_eq_one hx)

/-- **The period is `2 ^ 31 - 2`.**  From every seed the states after two numbers of calls are the same just
when these differ by a multiple of it, and every proper state comes up within it. -/
theorem after_eq_iff (s : UInt32) :
    (∀ n m, after s n = after s m ↔ n ≡ m [MOD 2 ^ 31 - 2]) ∧
      ∀ r : Random, r.Proper → ∃ n < 2 ^ 31 - 2, after s n = r := by
  have hperiod : 2 ^ 31 - 2 = 2147483647 - 1 := by norm_num
  have hseed := residue_ne_zero (proper_new s)
  refine ⟨fun n m => ?_, fun r hr => ?_⟩
  · rw [hperiod, ← factor_pow_eq_iff]
    constructor
    · intro heq
      have hres := congrArg residue heq
      rw [residue_after, residue_after] at hres
      exact mul_right_cancel₀ hseed hres
    · intro heq
      apply residue_inj (proper_after s n) (proper_after s m)
      rw [residue_after, residue_after, heq]
  · rw [hperiod]
    obtain ⟨n, hn, hpow⟩ := exists_pow_factor (mul_ne_zero (residue_ne_zero hr) (inv_ne_zero hseed))
    refine ⟨n, hn, residue_inj (proper_after s n) hr ?_⟩
    rw [residue_after, hpow, inv_mul_cancel_right₀ hseed]

end Random
end MiniLevelDB
