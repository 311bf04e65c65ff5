import MiniLevelDB.Crc32c
import MiniLevelDB.Lib.ReflectedCrc

/-! # The checksum is CRC-32C

`Extend` looks up whole bytes, four at a time; CRC-32C is defined by a register that takes the
message bit by bit.  A table entry is a number of steps of that register (`Tables.t_eq`), so the
lookups of one turn of the loop add up to 32 steps (`tables_word`). -/

namespace MiniLevelDB

open ReflectedCrc

/-- The bits of a byte string in the order they are sent: the lowest of a byte first. -/
def bitsOf (data : Bytes) : List Bool :=
  data.flatMap fun b => (List.range 8).map b.toBitVec.getLsbD

/-- CRC-32C continued from `crc`, one bit at a time. -/
def crc32c (crc : Crc) (data : Bytes) : Crc :=
  ~~~ feed 0x82f63b78#32 (~~~ crc) (bitsOf data)

@[simp] theorem bitsOf_nil : bitsOf [] = [] := rfl

@[simp] theorem bitsOf_cons (b : UInt8) (bs : Bytes) :
    bitsOf (b :: bs) = (List.range 8).map b.toBitVec.getLsbD ++ bitsOf bs := rfl

theorem bitsOf_append (a b : Bytes) : bitsOf (a ++ b) = bitsOf a ++ bitsOf b := List.flatMap_append

@[simp] theorem bitsOf_length (a : Bytes) : (bitsOf a).length = 8 * a.length := by
  induction a with
  | nil => rfl
  | cons b a ih =>
      rw [bitsOf_cons, List.length_append, List.length_map, List.length_range, ih, List.length_cons]
      omega

/-! ### The tables -/

theorem crcBitStep_eq (c : Crc) : crcBitStep c = bitStep kPoly c := by
  have hlow : c &&& 1#32 ≠ 0#32 ↔ c.getLsbD 0 = true := by
    rw [BitVec.and_one_eq_setWidth_ofBool_getLsbD]
    cases c.getLsbD 0 <;> decide
  rw [crcBitStep, bitStep]
  simp only [hlow]

/-- The low byte of the register, and the others moved down past it. -/
theorem steps_byte (n : ℕ) (c : Crc) :
    steps kPoly (8 + n) c = steps kPoly (8 + n) (c &&& 0xff#32) ^^^ steps kPoly n (c >>> 8) := by
  have hagree : ∀ i < 8, c.getLsbD i = (c &&& 0xff#32).getLsbD i := by
    intro i hi
    rw [BitVec.getLsbD_and]
    interval_cases i <;> simp
  have hrest : (c ^^^ c &&& 0xff#32) >>> 8 = c >>> 8 := by
    apply BitVec.eq_of_getLsbD_eq
    intro i hi
    have hmask : (0xff#32).getLsbD (8 + i) = false :=
      Nat.testBit_lt_two_pow ((by decide : 0xff < 2 ^ 8).trans_le
        (Nat.pow_le_pow_right (by decide) (Nat.le_add_right 8 i)))
    rw [BitVec.getLsbD_ushiftRight, BitVec.getLsbD_xor, BitVec.getLsbD_and, hmask, Bool.and_false,
      Bool.xor_false, BitVec.getLsbD_ushiftRight]
  rw [steps_add, steps_of_agree kPoly hagree, hrest, steps_xor, ← steps_add]

theorem Tables.t_zero (i : Crc) : Tables.t 0 i = steps kPoly 8 i := by
  have hfold : ∀ (n : ℕ) (c : Crc),
      (List.range n).foldl (fun c _ => crcBitStep c) c = steps kPoly n c := by
    intro n c
    induction n with
    | zero => rfl
    | succ n ih =>
        rw [List.range_succ, List.foldl_append, ih, steps_add, List.foldl_cons, List.foldl_nil,
          crcBitStep_eq]
        rfl
  rw [Tables.t, hfold]

/-- **A table entry is so many steps of the register.** -/
theorem Tables.t_eq (lvl : ℕ) (i : Crc) : Tables.t lvl i = steps kPoly (8 * (lvl + 1)) i := by
  induction lvl with
  | zero => exact Tables.t_zero i
  | succ lvl ih =>
      have hstep := steps_byte 0 (Tables.t lvl i)
      rw [Tables.t, Tables.t_zero, Nat.mul_succ, steps_add, ← ih, BitVec.xor_comm]
      exact hstep.symm

/-- One lookup for each byte of the register. -/
theorem tables_word (c : Crc) :
    Tables.t 3 (c &&& 0xff#32) ^^^ Tables.t 2 ((c >>> 8) &&& 0xff#32) ^^^
      Tables.t 1 ((c >>> 16) &&& 0xff#32) ^^^ Tables.t 0 (c >>> 24) = steps kPoly 32 c := by
  have h1 := steps_byte 24 c
  have h2 := steps_byte 16 (c >>> 8)
  have h3 := steps_byte 8 (c >>> 16)
  rw [← BitVec.shiftRight_add] at h2 h3
  simp only [Nat.reduceAdd] at h1 h2 h3
  simp only [Tables.t_eq, Nat.reduceAdd, Nat.reduceMul]
  rw [h1, h2, h3, BitVec.xor_assoc, BitVec.xor_assoc]

theorem getLsbD_crcByte_of_ge (b : UInt8) {i : ℕ} (h : 8 ≤ i) : (crcByte b).getLsbD i = false := by
  rw [crcByte, BitVec.getLsbD_setWidth, BitVec.getLsbD_of_ge b.toBitVec _ h, Bool.and_false]

/-! ### The loops -/

/-- A byte of the message is added at the low end. -/
theorem feed_byte (c : Crc) (b : UInt8) (bits : List Bool) :
    feed kPoly c ((List.range 8).map b.toBitVec.getLsbD ++ bits) =
      feed kPoly (steps kPoly 8 (c ^^^ crcByte b)) bits := by
  have hbyte : ofBits ((List.range 8).map b.toBitVec.getLsbD) = crcByte b := by
    apply BitVec.eq_of_getLsbD_eq
    intro i hi
    rw [getLsbD_ofBits _ hi, crcByte, BitVec.getLsbD_setWidth]
    by_cases h : i < 8
    · rw [List.getD_eq_getElem _ _ (by simpa using h)]
      simp [hi]
    · rw [List.getD_eq_default _ _ (by simpa using h), BitVec.getLsbD_of_ge _ _ (not_lt.mp h),
        Bool.and_false]
  rw [feed_append, feed_eq_steps kPoly c (by simp), hbyte, List.length_map, List.length_range]

/-- A byte that comes in after `n` bits may be added in front of them. -/
theorem steps_xor_byte (n : ℕ) (hn : n ≤ 24) (c : Crc) (b : UInt8) :
    steps kPoly n c ^^^ crcByte b = steps kPoly n (c ^^^ crcByte b <<< n) := by
  have hclear : ∀ i < n, (crcByte b <<< n).getLsbD i = false := by
    intro i hi
    rw [BitVec.getLsbD_shiftLeft]
    simp [hi]
  have hback : (crcByte b <<< n) >>> n = crcByte b := by
    apply BitVec.eq_of_getLsbD_eq
    intro i hi
    rw [BitVec.getLsbD_ushiftRight, BitVec.getLsbD_shiftLeft]
    by_cases h : i < 8
    · simp [show n + i < 32 by omega]
    · simp [getLsbD_crcByte_of_ge b (not_lt.mp h)]
  rw [steps_xor, steps_of_low_clear kPoly hclear, hback]

/-- The four bytes of a word do not overlap. -/
theorem word_eq (b₀ b₁ b₂ b₃ : UInt8) :
    crcByte b₀ ||| (crcByte b₁ <<< 8) ||| (crcByte b₂ <<< 16) ||| (crcByte b₃ <<< 24) =
      crcByte b₀ ^^^ (crcByte b₁ <<< 8) ^^^ (crcByte b₂ <<< 16) ^^^ (crcByte b₃ <<< 24) := by
  have hbyte : ∀ (b : UInt8) (i : ℕ), 8 ≤ i → (crcByte b).getLsbD i = false :=
    fun b _ hi => getLsbD_crcByte_of_ge b hi
  apply BitVec.eq_of_getLsbD_eq
  intro i hi
  simp only [BitVec.getLsbD_or, BitVec.getLsbD_xor, BitVec.getLsbD_shiftLeft]
  rcases lt_or_ge i 8 with h | h
  · simp [h, show i < 16 by omega, show i < 24 by omega]
  rcases lt_or_ge i 16 with h' | h'
  · simp [hbyte b₀ i h, h', show i < 24 by omega]
  rcases lt_or_ge i 24 with h'' | h''
  · simp [hbyte b₀ i h, hbyte b₁ (i - 8) (by omega), h'']
  · simp [hbyte b₀ i h, hbyte b₁ (i - 8) (by omega), hbyte b₂ (i - 16) (by omega)]

theorem xor_crcByte_shift (c : Crc) (b : UInt8) : (c ^^^ crcByte b) >>> 8 = c >>> 8 := by
  have hzero : crcByte b >>> 8 = 0#32 := by
    apply BitVec.eq_of_getLsbD_eq
    intro i hi
    rw [BitVec.getLsbD_ushiftRight, getLsbD_crcByte_of_ge b (Nat.le_add_right 8 i),
      BitVec.getLsbD_zero]
  rw [BitVec.ushiftRight_xor_distrib, hzero, BitVec.xor_zero]

/-- **The loops of `Extend` feed the register the bits of the bytes.** -/
theorem crcLoop_eq (c : Crc) (data : Bytes) : crcLoop c data = feed kPoly c (bitsOf data) := by
  induction c, data using crcLoop.induct with
  | case1 c b₀ b₁ b₂ b₃ rest word c' ih =>
      have hword : steps kPoly 8 (steps kPoly 8 (steps kPoly 8 (steps kPoly 8 (c ^^^ crcByte b₀) ^^^
          crcByte b₁) ^^^ crcByte b₂) ^^^ crcByte b₃) = steps kPoly 32 c' := by
        rw [steps_xor_byte 8 (by decide) _ b₁, ← steps_add, steps_xor_byte (8 + 8) (by decide) _ b₂,
          ← steps_add, steps_xor_byte (8 + 8 + 8) (by decide) _ b₃, ← steps_add]
        congr 1
        simp only [c', word, word_eq, BitVec.xor_assoc]
      rw [crcLoop]
      simp only [bitsOf_cons, feed_byte]
      rw [hword, ← tables_word]
      exact ih
  | case2 c b rest hshort ih =>
      have hbyte := steps_byte 0 (c ^^^ crcByte b)
      rw [crcLoop.eq_2 _ _ _ hshort, ih, bitsOf_cons, feed_byte, Tables.t_zero]
      rw [xor_crcByte_shift] at hbyte
      exact congrArg (feed kPoly · (bitsOf rest)) hbyte.symm
  | case3 c => rfl

/-- **`Extend` is CRC-32C**, and goes on where a call before it stopped. -/
theorem extend_crc32c :
    (∀ (crc : Crc) (data : Bytes), extend crc data = crc32c crc data) ∧
      ∀ (crc : Crc) (a b : Bytes), extend (extend crc a) b = extend crc (a ++ b) := by
  constructor
  · intro crc data
    rw [extend, crcLoop_eq]
    rfl
  · intro crc a b
    simp only [extend, crcLoop_eq, BitVec.not_not, bitsOf_append, feed_append]

end MiniLevelDB
