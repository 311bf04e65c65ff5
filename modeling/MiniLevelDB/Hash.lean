import MiniLevelDB.Slice

/-! # The hash of keys

`Hash` of `util/hash.h`.  Every step is a bijection of the state, so different seeds give a key different
hashes, and two keys that differ within one word of four bytes have different hashes under the same seed
(`hash_eq_iff`). -/

namespace MiniLevelDB
namespace Hash

def m : UInt32 := 0xc6a4a793
def r : UInt32 := 24

/-- Four bytes as a word, the lowest first. -/
def word (b₀ b₁ b₂ b₃ : UInt8) : UInt32 :=
  b₀.toUInt32 ||| (b₁.toUInt32 <<< 8) ||| (b₂.toUInt32 <<< 16) ||| (b₃.toUInt32 <<< 24)

/-- The multiplication and the shift that end a round. -/
def mix (h shift : UInt32) : UInt32 :=
  let h := h * m
  h ^^^ (h >>> shift)

/-- The loop over the words and the `switch` over the bytes left behind them. -/
def rounds (h : UInt32) : Bytes → UInt32
  | b₀ :: b₁ :: b₂ :: b₃ :: data => rounds (mix (h + word b₀ b₁ b₂ b₃) 16) data
  | [b₀, b₁, b₂] => mix (h + (b₂.toUInt32 <<< 16) + (b₁.toUInt32 <<< 8) + b₀.toUInt32) r
  | [b₀, b₁] => mix (h + (b₁.toUInt32 <<< 8) + b₀.toUInt32) r
  | [b₀] => mix (h + b₀.toUInt32) r
  | [] => h

/-- `Hash`: the length is multiplied as a `size_t`. -/
def hash (data : Bytes) (seed : UInt32) : UInt32 :=
  rounds (seed.toUInt64 ^^^ (UInt64.ofNat data.length * m.toUInt64)).toUInt32 data

/-! ### The steps are bijections -/

theorem mul_m_inj {x y : UInt32} (h : x * m = y * m) : x = y := by
  have hinv : m * 3625553563 = 1 := by decide
  have hmul := congrArg (· * (3625553563 : UInt32)) h
  simpa only [UInt32.mul_assoc, hinv, UInt32.mul_one] using hmul

/-- The high half is kept, and the low half can be taken back with it. -/
theorem xor_shift_inj {x y : UInt32} {n : ℕ} (hle : 16 ≤ n) (hlt : n < 32)
    (h : x.toBitVec ^^^ (x.toBitVec >>> n) = y.toBitVec ^^^ (y.toBitVec >>> n)) : x = y := by
  have hbit : ∀ i, (x.toBitVec.getLsbD i ^^ x.toBitVec.getLsbD (n + i)) =
      (y.toBitVec.getLsbD i ^^ y.toBitVec.getLsbD (n + i)) := by
    intro i
    have hi := congrArg (fun v => v.getLsbD i) h
    simpa only [BitVec.getLsbD_xor, BitVec.getLsbD_ushiftRight] using hi
  have hhigh : ∀ i, 16 ≤ i → x.toBitVec.getLsbD i = y.toBitVec.getLsbD i := by
    intro i hi
    have hx := x.toBitVec.getLsbD_of_ge (n + i) (by omega)
    have hy := y.toBitVec.getLsbD_of_ge (n + i) (by omega)
    have heq := hbit i
    rw [hx, hy, Bool.xor_false, Bool.xor_false] at heq
    exact heq
  apply UInt32.toBitVec_inj.mp
  apply BitVec.eq_of_getLsbD_eq
  intro i _
  have heq := hbit i
  rw [hhigh (n + i) (by omega)] at heq
  exact Bool.xor_left_inj.mp heq

theorem mix_inj {x y shift : UInt32} (hshift : shift = 16 ∨ shift = r) (h : mix x shift = mix y shift) :
    x = y := by
  have hbits := congrArg UInt32.toBitVec h
  have h16 : ∀ z : UInt32, (z >>> 16).toBitVec = z.toBitVec >>> 16 := fun _ => rfl
  have h24 : ∀ z : UInt32, (z >>> r).toBitVec = z.toBitVec >>> 24 := fun _ => rfl
  rcases hshift with rfl | rfl
  · simp only [mix, UInt32.toBitVec_xor, h16] at hbits
    exact mul_m_inj (xor_shift_inj (by decide) (by decide) hbits)
  · simp only [mix, UInt32.toBitVec_xor, h24] at hbits
    exact mul_m_inj (xor_shift_inj (by decide) (by decide) hbits)

/-- The rounds are a bijection of the state. -/
theorem rounds_inj {x y : UInt32} {data : Bytes} (h : rounds x data = rounds y data) : x = y := by
  induction x, data using rounds.induct generalizing y with
  | case1 x b₀ b₁ b₂ b₃ data ih =>
      rw [rounds, rounds] at h
      exact (UInt32.add_left_inj _).mp (mix_inj (Or.inl rfl) (ih h))
  | case2 x b₀ b₁ b₂ =>
      rw [rounds, rounds] at h
      have hsum := mix_inj (Or.inr rfl) h
      exact (UInt32.add_left_inj _).mp ((UInt32.add_left_inj _).mp ((UInt32.add_left_inj _).mp hsum))
  | case3 x b₀ b₁ =>
      rw [rounds, rounds] at h
      have hsum := mix_inj (Or.inr rfl) h
      exact (UInt32.add_left_inj _).mp ((UInt32.add_left_inj _).mp hsum)
  | case4 x b₀ =>
      rw [rounds, rounds] at h
      have hsum := mix_inj (Or.inr rfl) h
      exact (UInt32.add_left_inj _).mp hsum
  | case5 x =>
      rw [rounds, rounds] at h
      exact h

/-- The bits of a word are those of its bytes. -/
theorem word_bit (a b c d : UInt8) {i : ℕ} (hi : i < 8) :
    (word a b c d).toBitVec.getLsbD i = a.toBitVec.getLsbD i ∧
      (word a b c d).toBitVec.getLsbD (8 + i) = b.toBitVec.getLsbD i ∧
      (word a b c d).toBitVec.getLsbD (16 + i) = c.toBitVec.getLsbD i ∧
      (word a b c d).toBitVec.getLsbD (24 + i) = d.toBitVec.getLsbD i := by
  have hzero : ∀ (x : UInt8) j, 8 ≤ j → x.toBitVec.getLsbD j = false := fun x j hj =>
    x.toBitVec.getLsbD_of_ge j hj
  refine ⟨?_, ?_, ?_, ?_⟩
  · simp [word, hi, show i < 16 by omega, show i < 24 by omega, show i < 32 by omega]
  · simp [word, show 8 + i < 16 by omega, show 8 + i < 24 by omega, show 8 + i < 32 by omega]
  · simp [word, show 16 + i < 24 by omega, show 16 + i < 32 by omega,
      hzero a (16 + i) (by omega), hzero b (16 + i - 8) (by omega)]
  · simp [word, show 24 + i < 32 by omega, hzero a (24 + i) (by omega),
      hzero b (24 + i - 8) (by omega), hzero c (24 + i - 16) (by omega)]

theorem word_inj {a b c d a' b' c' d' : UInt8} (h : word a b c d = word a' b' c' d') :
    [a, b, c, d] = [a', b', c', d'] := by
  have hbyte : ∀ {x y : UInt8}, (∀ i, i < 8 → x.toBitVec.getLsbD i = y.toBitVec.getLsbD i) → x = y := by
    intro x y hbits
    exact UInt8.toBitVec_inj.mp (BitVec.eq_of_getLsbD_eq hbits)
  have hbits := fun i (hi : i < 8) => word_bit a b c d hi
  rw [h] at hbits
  have ha : a = a' := hbyte fun i hi => (hbits i hi).1.symm.trans (word_bit a' b' c' d' hi).1
  have hb : b = b' := hbyte fun i hi => (hbits i hi).2.1.symm.trans (word_bit a' b' c' d' hi).2.1
  have hc : c = c' := hbyte fun i hi => (hbits i hi).2.2.1.symm.trans (word_bit a' b' c' d' hi).2.2.1
  have hd : d = d' := hbyte fun i hi => (hbits i hi).2.2.2.symm.trans (word_bit a' b' c' d' hi).2.2.2
  rw [ha, hb, hc, hd]

/-- Whole words at the beginning bring the loop into a state. -/
theorem exists_state {pre : Bytes} (hpre : 4 ∣ pre.length) (h : UInt32) :
    ∃ h', ∀ data, rounds h (pre ++ data) = rounds h' data := by
  induction h, pre using rounds.induct with
  | case1 h b₀ b₁ b₂ b₃ pre ih =>
      simp only [List.length_cons] at hpre
      obtain ⟨h', hrest⟩ := ih (by omega)
      exact ⟨h', fun data => (rounds.eq_1 _ _ _ _ _ _).trans (hrest data)⟩
  | case2 h b₀ b₁ b₂ => exact absurd hpre (show ¬ 4 ∣ 3 by decide)
  | case3 h b₀ b₁ => exact absurd hpre (show ¬ 4 ∣ 2 by decide)
  | case4 h b₀ => exact absurd hpre (show ¬ 4 ∣ 1 by decide)
  | case5 h => exact ⟨h, fun _ => rfl⟩

/-- **Seeds and words do not collide.**  Different seeds give a key different hashes; and two keys that differ
in one aligned word have different hashes under the same seed. -/
theorem hash_eq_iff :
    (∀ data seed seed', hash data seed = hash data seed' ↔ seed = seed') ∧
      ∀ pre w w' post seed, 4 ∣ pre.length → w.length = 4 → w'.length = 4 →
        (hash (pre ++ w ++ post) seed = hash (pre ++ w' ++ post) seed ↔ w = w') := by
  constructor
  · intro data seed seed'
    refine ⟨fun h => ?_, fun h => by rw [h]⟩
    have hstart := rounds_inj h
    simp only [UInt64.toUInt32_xor, UInt32.toUInt32_toUInt64] at hstart
    exact (UInt32.xor_left_inj _).mp hstart
  · intro pre w w' post seed hpre hw hw'
    refine ⟨fun h => ?_, fun h => by rw [h]⟩
    have hlen : (pre ++ w ++ post).length = (pre ++ w' ++ post).length := by
      simp only [List.length_append, hw, hw']
    rw [hash, hash, hlen] at h
    generalize (seed.toUInt64 ^^^ (UInt64.ofNat (pre ++ w' ++ post).length * m.toUInt64)).toUInt32 = start at h
    obtain ⟨h', hstate⟩ := exists_state hpre start
    obtain ⟨b₀, b₁, b₂, b₃, rfl⟩ := List.length_eq_four.mp hw
    obtain ⟨c₀, c₁, c₂, c₃, rfl⟩ := List.length_eq_four.mp hw'
    rw [List.append_assoc, List.append_assoc, hstate, hstate] at h
    simp only [List.cons_append, List.nil_append, rounds] at h
    have hmix := rounds_inj h
    exact word_inj ((UInt32.add_right_inj _).mp (mix_inj (Or.inl rfl) hmix))

theorem hash_eq_iff_word :
    hash ([] ++ [1, 0, 0, 0] ++ [9]) 7 ≠ hash ([] ++ [2, 0, 0, 0] ++ [9]) 7 := by
  rw [Ne, hash_eq_iff.2 [] [1, 0, 0, 0] [2, 0, 0, 0] [9] 7 (by decide) rfl rfl]
  decide

end Hash
end MiniLevelDB
