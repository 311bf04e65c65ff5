import MiniLevelDB.SkipList

/-! # The random numbers of the skip list

`Random` and `RandomHeight` of `db/skiplist.h`, on the code's own 32-bit and 64-bit integers.  The
modulus `2 ^ 31 - 1` does not divide the product of the factor with a state, so the single subtraction
in `Next` is the remainder (`next_toNat`), and every state is one of `1, …, 2 ^ 31 - 2`. -/

namespace MiniLevelDB

/-- `Random`. -/
structure Random where
  seed : UInt32
deriving DecidableEq, Repr

namespace Random

def M : UInt32 := 2147483647
def A : UInt64 := 16807

/-- `Random(s)`. -/
def new (s : UInt32) : Random :=
  let seed := s &&& 0x7fffffff
  ⟨if seed = 0 ∨ seed = 2147483647 then 1 else seed⟩

/-- `seed_ * A`. -/
def product (r : Random) : UInt64 := r.seed.toUInt64 * A

/-- `(product >> 31) + (product & M)`. -/
def folded (r : Random) : UInt64 := (r.product >>> 31) + (r.product &&& M.toUInt64)

/-- `Next`: the number returned and the state. -/
def next (r : Random) : UInt32 × Random :=
  let seed := r.folded.toUInt32
  let seed := if seed > M then seed - M else seed
  (seed, ⟨seed⟩)

/-- The state after `n` calls of `Next`. -/
def after (s : UInt32) (n : ℕ) : Random := (fun r => r.next.2)^[n] (new s)

/-- A state that is no multiple of the modulus. -/
def Proper (r : Random) : Prop := 1 ≤ r.seed.toNat ∧ r.seed.toNat ≤ 2 ^ 31 - 2

theorem toNat_M : M.toNat = 2 ^ 31 - 1 := rfl

/-- A number of 31 bits that is neither zero nor the modulus is a proper state. -/
theorem proper_of_ne {seed : UInt32} (hlt : seed.toNat < 2 ^ 31) (h0 : seed ≠ 0) (hM : seed ≠ M) :
    Proper ⟨seed⟩ := by
  have h0 : seed.toNat ≠ 0 := fun h => h0 (UInt32.toNat_inj.mp h)
  have hM : seed.toNat ≠ 2 ^ 31 - 1 := fun h => hM (UInt32.toNat_inj.mp (h.trans toNat_M.symm))
  unfold Proper
  dsimp only
  omega

theorem proper_new (s : UInt32) : (new s).Proper := by
  have hmask : (s &&& 0x7fffffff).toNat < 2 ^ 31 := by
    rw [UInt32.toNat_and, show (0x7fffffff : UInt32).toNat = 2 ^ 31 - 1 from rfl,
      Nat.and_two_pow_sub_one_eq_mod]
    exact Nat.mod_lt _ (by decide)
  unfold new
  dsimp only
  split
  · exact ⟨le_refl 1, by decide⟩
  · rename_i hne
    obtain ⟨h0, hM⟩ := not_or.mp hne
    exact proper_of_ne hmask h0 hM

section

variable {r : Random}

/-- The product has its exact value. -/
theorem product_toNat (h : r.Proper) : r.product.toNat = 16807 * r.seed.toNat := by
  have hle := h.2
  rw [product, UInt64.toNat_mul, UInt32.toNat_toUInt64, show A.toNat = 16807 from rfl,
    Nat.mod_eq_of_lt (by omega), Nat.mul_comm]

/-- So has the sum of its two parts. -/
theorem folded_toNat (h : r.Proper) :
    r.folded.toNat = 16807 * r.seed.toNat / 2 ^ 31 + 16807 * r.seed.toNat % 2 ^ 31 := by
  have hle := h.2
  have hhigh : (r.product >>> 31).toNat = 16807 * r.seed.toNat / 2 ^ 31 := by
    rw [UInt64.toNat_shiftRight, product_toNat h, Nat.shiftRight_eq_div_pow]
    rfl
  have hlow : (r.product &&& M.toUInt64).toNat = 16807 * r.seed.toNat % 2 ^ 31 := by
    rw [UInt64.toNat_and, product_toNat h, show M.toUInt64.toNat = 2 ^ 31 - 1 from rfl,
      Nat.and_two_pow_sub_one_eq_mod]
  rw [folded, UInt64.toNat_add, hhigh, hlow]
  omega

/-- The sum fits into the state. -/
theorem folded_lt (h : r.Proper) : r.folded.toNat < 2 ^ 32 := by
  have hle := h.2
  rw [folded_toNat h]
  omega

/-- The modulus divides none of the products. -/
theorem product_mod_ne_zero (h : r.Proper) : 16807 * r.seed.toNat % (2 ^ 31 - 1) ≠ 0 := by
  intro hzero
  have hcoprime : Nat.Coprime (2 ^ 31 - 1) 16807 := by norm_num
  have hdvd := hcoprime.dvd_of_dvd_mul_left (Nat.dvd_of_mod_eq_zero hzero)
  have hle := Nat.le_of_dvd h.1 hdvd
  have hlt := h.2
  omega

/-- **`Next` is multiplication modulo `2 ^ 31 - 1`.** -/
theorem next_toNat (h : r.Proper) : r.next.1.toNat = 16807 * r.seed.toNat % (2 ^ 31 - 1) := by
  have hle := h.2
  have hne := product_mod_ne_zero h
  have hseed : r.folded.toUInt32.toNat =
      16807 * r.seed.toNat / 2 ^ 31 + 16807 * r.seed.toNat % 2 ^ 31 := by
    rw [UInt64.toNat_toUInt32, Nat.mod_eq_of_lt (folded_lt h), folded_toNat h]
  unfold next
  dsimp only
  split
  · next hgt =>
      have hle : M ≤ r.folded.toUInt32 := UInt32.le_of_lt hgt
      rw [gt_iff_lt, UInt32.lt_iff_toNat_lt, toNat_M] at hgt
      rw [UInt32.toNat_sub_of_le _ _ hle, toNat_M, hseed]
      omega
  · next hngt =>
      rw [gt_iff_lt, UInt32.lt_iff_toNat_lt, toNat_M, not_lt] at hngt
      -- the sum is not the modulus, which would divide the product
      rw [hseed]
      omega

theorem proper_next (h : r.Proper) : r.next.2.Proper := by
  have hnext := next_toNat h
  have hne := product_mod_ne_zero h
  have hlt := Nat.mod_lt (16807 * r.seed.toNat) (by decide : 0 < 2 ^ 31 - 1)
  change 1 ≤ r.next.1.toNat ∧ r.next.1.toNat ≤ 2 ^ 31 - 2
  omega

end

/-- Every state of a run is proper. -/
theorem proper_after (s : UInt32) (n : ℕ) : (after s n).Proper := by
  induction n with
  | zero => exact proper_new s
  | succ n ih =>
      rw [after, Function.iterate_succ_apply']
      exact proper_next ih

/-! ### Heights -/

def kBranching : UInt32 := 4

/-- The loop of `RandomHeight`. -/
def heightLoop (r : Random) (h : ℕ) : ℕ × Random :=
  if h < kMaxHeight then
    let (x, r) := r.next
    if x % kBranching = 0 then heightLoop r (h + 1) else (h, r)
  else (h, r)
termination_by kMaxHeight - h

/-- `RandomHeight`: the height and the generator. -/
def randomHeight (r : Random) : ℕ × Random := r.heightLoop 1

theorem heightLoop_bounds (r : Random) {h : ℕ} (hle : h ≤ kMaxHeight) :
    h ≤ (r.heightLoop h).1 ∧ (r.heightLoop h).1 ≤ kMaxHeight := by
  induction r, h using heightLoop.induct with
  | case1 r h hlt x r' hnext hzero ih =>
      have := ih hlt
      rw [heightLoop, if_pos hlt, hnext]
      dsimp only
      rw [if_pos hzero]
      omega
  | case2 r h hlt x r' hnext hzero =>
      rw [heightLoop, if_pos hlt, hnext]
      dsimp only
      rw [if_neg hzero]
      exact ⟨le_refl h, hle⟩
  | case3 r h hlt =>
      rw [heightLoop, if_neg hlt]
      exact ⟨le_refl h, hle⟩

/-- The heights are those `insert` takes. -/
def towerHeight (r : Random) : TowerHeight :=
  ⟨r.randomHeight.1, (r.heightLoop_bounds (by decide)).1, (r.heightLoop_bounds (by decide)).2⟩

/-- From the state `0` every node has the greatest height. -/
theorem heightLoop_zero {h : ℕ} (hle : h ≤ kMaxHeight) : heightLoop ⟨0⟩ h = (kMaxHeight, ⟨0⟩) := by
  have hnext : next ⟨0⟩ = (0, ⟨0⟩) := by decide
  induction hn : kMaxHeight - h generalizing h with
  | zero =>
      obtain rfl : h = kMaxHeight := by omega
      rw [heightLoop, if_neg (lt_irrefl _)]
  | succ n ih =>
      rw [heightLoop, if_pos (by omega), hnext]
      dsimp only
      rw [if_pos (by decide), ih (by omega) (by omega)]

/-- From the modulus every node has the height one. -/
theorem randomHeight_modulus : randomHeight ⟨M⟩ = (1, ⟨M⟩) := by
  have hnext : next ⟨M⟩ = (M, ⟨M⟩) := by decide
  rw [randomHeight, heightLoop, if_pos (by decide), hnext]
  dsimp only
  rw [if_neg (by decide)]

/-- **The states of the generator.**  From every seed and after any number of calls the state is
between `1` and `2 ^ 31 - 2`, and `Next` multiplies it by the factor modulo `2 ^ 31 - 1`: the product
and the sum are exact in 64 bits, and the sum fits into 32.  The two states that are left out are
those at which all heights are the same. -/
theorem after_next (s : UInt32) (n : ℕ) :
    (1 ≤ (after s n).seed.toNat ∧ (after s n).seed.toNat ≤ 2 ^ 31 - 2) ∧
      after s (n + 1) = (after s n).next.2 ∧
      (after s n).next.2.seed.toNat = 16807 * (after s n).seed.toNat % (2 ^ 31 - 1) ∧
      (after s n).product.toNat = (after s n).seed.toNat * A.toNat ∧
      (after s n).folded.toNat =
        ((after s n).product >>> 31).toNat + ((after s n).product &&& M.toUInt64).toNat ∧
      (after s n).folded.toUInt32.toNat = (after s n).folded.toNat ∧
      (after s n).seed ≠ 0 ∧ (after s n).seed ≠ M ∧
      randomHeight ⟨0⟩ = (kMaxHeight, ⟨0⟩) ∧ randomHeight ⟨M⟩ = (1, ⟨M⟩) := by
  have h := proper_after s n
  obtain ⟨hge, hle⟩ := id h
  refine ⟨⟨hge, hle⟩, ?_, next_toNat h, ?_, ?_, ?_, ?_, ?_, heightLoop_zero (by decide),
    randomHeight_modulus⟩
  · rw [after, Function.iterate_succ_apply', ← after]
  · rw [product_toNat h, Nat.mul_comm]
    rfl
  · rw [folded, UInt64.toNat_add, Nat.mod_eq_of_lt]
    have hsum := folded_toNat h
    rw [UInt64.toNat_shiftRight, UInt64.toNat_and, product_toNat h,
      show M.toUInt64.toNat = 2 ^ 31 - 1 from rfl, Nat.and_two_pow_sub_one_eq_mod,
      Nat.shiftRight_eq_div_pow]
    change _ / 2 ^ 31 + _ < _
    omega
  · rw [UInt64.toNat_toUInt32, Nat.mod_eq_of_lt (folded_lt h)]
  · intro h0
    rw [h0] at hge
    exact absurd hge (by decide)
  · intro hM
    rw [hM] at hle
    exact absurd hle (by decide)

end Random

end MiniLevelDB
