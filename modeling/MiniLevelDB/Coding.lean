import MiniLevelDB.Slice

/-! # Fixed-width and variable-length integers

The little-endian codecs of `util/coding.h` and the base-128 varints of `util/coding.cc`.  The
fixed-width pair is one codec over a number of bytes; the two varint decoders are one loop over
the width of the result and the last shift it admits.  Values are natural numbers, truncated where
the code's types truncate them.  A decoder returns the value and what is left of the input, or
`none` when it fails. -/

namespace MiniLevelDB

/-! ### Fixed width -/

/-- `p[i] = value >> (8 * i)` for `width` bytes. -/
def encodeFixed : ℕ → ℕ → Bytes
  | 0, _ => []
  | width + 1, value => UInt8.ofNat value :: encodeFixed width (value >>> 8)

/-- `result |= p[i] << (8 * i)` over `width` bytes. -/
def decodeFixed : ℕ → Bytes → ℕ
  | 0, _ => 0
  | width + 1, p => (p.headD 0).toNat ||| (decodeFixed width p.tail <<< 8)

def encodeFixed32 (value : ℕ) : Bytes := encodeFixed 4 value
def encodeFixed64 (value : ℕ) : Bytes := encodeFixed 8 value
def decodeFixed32 (p : Bytes) : ℕ := decodeFixed 4 p
def decodeFixed64 (p : Bytes) : ℕ := decodeFixed 8 p

@[simp] theorem encodeFixed_length (width value : ℕ) : (encodeFixed width value).length = width := by
  induction width generalizing value with
  | zero => rfl
  | succ n ih => simp [encodeFixed, ih]

@[simp] theorem encodeFixed32_length (v : ℕ) : (encodeFixed32 v).length = 4 :=
  encodeFixed_length 4 v

@[simp] theorem encodeFixed64_length (v : ℕ) : (encodeFixed64 v).length = 8 :=
  encodeFixed_length 8 v

/-- Joining disjoint bits is addition. -/
theorem or_shiftLeft_eq_add {a i : ℕ} (h : a < 2 ^ i) (b : ℕ) :
    a ||| (b <<< i) = a + b * 2 ^ i := by
  rw [Nat.or_comm, ← Nat.shiftLeft_add_eq_or_of_lt h, Nat.shiftLeft_eq, Nat.add_comm]

theorem decodeFixed_encodeFixed (width value : ℕ) (t : Bytes) :
    decodeFixed width (encodeFixed width value ++ t) = value % 256 ^ width := by
  induction width generalizing value with
  | zero => simp [decodeFixed, Nat.mod_one]
  | succ n ih =>
      simp only [encodeFixed, decodeFixed, List.cons_append, List.headD_cons, List.tail_cons, ih]
      rw [or_shiftLeft_eq_add (UInt8.toNat_lt _), Nat.shiftRight_eq_div_pow,
        show (2 : ℕ) ^ 8 = 256 from rfl, Nat.pow_succ', Nat.mod_mul, UInt8.toNat_ofNat',
        Nat.mul_comm]

/-- Bits the field has no room for are dropped. -/
theorem encodeFixed_mod (width value : ℕ) :
    encodeFixed width (value % 256 ^ width) = encodeFixed width value := by
  induction width generalizing value with
  | zero => rfl
  | succ n ih =>
      have hhigh : (value % 256 ^ (n + 1)) >>> 8 = (value >>> 8) % 256 ^ n := by
        rw [Nat.shiftRight_eq_div_pow, Nat.shiftRight_eq_div_pow, Nat.pow_succ',
          show (2 : ℕ) ^ 8 = 256 from rfl, Nat.mod_mul_right_div_self]
      have hlow : UInt8.ofNat (value % 256 ^ (n + 1)) = UInt8.ofNat value := by
        apply UInt8.toNat_inj.mp
        rw [UInt8.toNat_ofNat', UInt8.toNat_ofNat', Nat.pow_succ', Nat.mod_mul_right_mod]
      rw [encodeFixed, encodeFixed, hhigh, hlow, ih]

theorem decodeFixed_lt (width : ℕ) (p : Bytes) : decodeFixed width p < 256 ^ width := by
  induction width generalizing p with
  | zero => simp [decodeFixed]
  | succ n ih =>
      rw [decodeFixed, or_shiftLeft_eq_add (UInt8.toNat_lt _), Nat.pow_succ']
      have h1 := ih p.tail
      have h2 := (p.headD 0).toNat_lt
      omega

/-- The decoder reads only the first `width` bytes. -/
theorem decodeFixed_append {width : ℕ} {p : Bytes} (h : width ≤ p.length) (t : Bytes) :
    decodeFixed width (p ++ t) = decodeFixed width p := by
  induction width generalizing p with
  | zero => rfl
  | succ n ih =>
      cases p with
      | nil => simp at h
      | cons x p =>
          simp only [decodeFixed, List.cons_append, List.headD_cons, List.tail_cons]
          rw [ih (by simpa using h)]

theorem decodeFixed32_encodeFixed32 {v : ℕ} (h : v < 2 ^ 32) (t : Bytes) :
    decodeFixed32 (encodeFixed32 v ++ t) = v :=
  (decodeFixed_encodeFixed 4 v t).trans (Nat.mod_eq_of_lt h)

theorem decodeFixed64_encodeFixed64 {v : ℕ} (h : v < 2 ^ 64) (t : Bytes) :
    decodeFixed64 (encodeFixed64 v ++ t) = v :=
  (decodeFixed_encodeFixed 8 v t).trans (Nat.mod_eq_of_lt h)

/-! ### Varints -/

/-- `EncodeVarint`: seven bits a byte, lowest first, the high bit set on all bytes but the last. -/
def encodeVarint (v : ℕ) : Bytes :=
  if v ≥ 128 then UInt8.ofNat ((v &&& 0x7F) ||| 0x80) :: encodeVarint (v >>> 7)
  else [UInt8.ofNat v]
termination_by v
decreasing_by simp only [Nat.shiftRight_eq_div_pow]; omega

/-- The loop of `GetVarint32Ptr` and `GetVarint64Ptr`: `width` is the width of `*value`,
`lastShift` the last shift the loop admits. -/
def getVarintPtr (width lastShift : ℕ) : ℕ → ℕ → Bytes → Option (ℕ × Bytes)
  | _, _, [] => none
  | shift, result, p :: rest =>
      if shift ≤ lastShift then
        if p.toNat &&& 128 ≠ 0 then
          getVarintPtr width lastShift (shift + 7)
            (result ||| (((p.toNat &&& 127) <<< shift) % 2 ^ width)) rest
        else some (result ||| ((p.toNat <<< shift) % 2 ^ width), rest)
      else none

def putVarint32 (v : ℕ) : Bytes := encodeVarint (v % 2 ^ 32)
def putVarint64 (v : ℕ) : Bytes := encodeVarint (v % 2 ^ 64)

/-- `GetVarint32`: the value and the input behind it. -/
def getVarint32 (input : Bytes) : Option (ℕ × Bytes) := getVarintPtr 32 28 0 0 input
def getVarint64 (input : Bytes) : Option (ℕ × Bytes) := getVarintPtr 64 63 0 0 input

def putLengthPrefixedSlice (value : Bytes) : Bytes := putVarint32 value.length ++ value

/-- `GetLengthPrefixedSlice`: the slice and the input behind it. -/
def getLengthPrefixedSlice (input : Bytes) : Option (Bytes × Bytes) :=
  match getVarint32 input with
  | some (len, input) => if input.length ≥ len then some (input.take len, input.drop len) else none
  | none => none

theorem encodeVarint_of_ge {v : ℕ} (h : v ≥ 128) :
    encodeVarint v = UInt8.ofNat (v % 128 + 128) :: encodeVarint (v / 128) := by
  have h1 : v &&& 0x7F = v % 128 := Nat.and_two_pow_sub_one_eq_mod v 7
  have h2 : (v % 128 ||| 0x80) = v % 128 + 128 :=
    or_shiftLeft_eq_add (i := 7) (Nat.mod_lt v (by decide)) 1
  rw [encodeVarint, if_pos h, h1, h2, Nat.shiftRight_eq_div_pow]

theorem encodeVarint_of_lt {v : ℕ} (h : v < 128) : encodeVarint v = [UInt8.ofNat v] := by
  rw [encodeVarint, if_neg (by omega)]

theorem encodeVarint_length_pos (v : ℕ) : 0 < (encodeVarint v).length := by
  rw [encodeVarint]
  split <;> simp

/-- `n` bytes are enough for `7 * n` bits. -/
theorem encodeVarint_length_le {n v : ℕ} (hn : 0 < n) (h : v < 2 ^ (7 * n)) :
    (encodeVarint v).length ≤ n := by
  induction n generalizing v with
  | zero => omega
  | succ n ih =>
      by_cases hv : v ≥ 128
      · rw [encodeVarint_of_ge hv, List.length_cons]
        have hn0 : n ≠ 0 := by rintro rfl; simp at h; omega
        have hp : 2 ^ (7 * (n + 1)) = 2 ^ (7 * n) * 128 := by rw [Nat.mul_add, Nat.pow_add]
        have := ih (by omega) (Nat.div_lt_of_lt_mul (by rw [Nat.mul_comm, ← hp]; exact h))
        omega
      · rw [encodeVarint_of_lt (by omega)]
        simp

theorem putVarint32_length_le (v : ℕ) : (putVarint32 v).length ≤ 5 :=
  encodeVarint_length_le (by decide) ((Nat.mod_lt v (by decide)).trans (by decide))

theorem putVarint64_length_le (v : ℕ) : (putVarint64 v).length ≤ 10 :=
  encodeVarint_length_le (by decide) ((Nat.mod_lt v (by decide)).trans (by decide))

theorem putVarint32_length_pos (v : ℕ) : 0 < (putVarint32 v).length := encodeVarint_length_pos _

theorem putVarint64_length_pos (v : ℕ) : 0 < (putVarint64 v).length := encodeVarint_length_pos _

theorem and_128_of_lt {b : ℕ} (h : b < 128) : b &&& 128 = 0 := by
  apply Nat.eq_of_testBit_eq
  intro i
  rw [Nat.testBit_and, Nat.zero_testBit, show (128 : ℕ) = 2 ^ 7 from rfl, Nat.testBit_two_pow]
  by_cases hi : 7 = i
  · subst hi
    simp [Nat.testBit_lt_two_pow (show b < 2 ^ 7 from h)]
  · simp [hi]

theorem add_128_and_128 {b : ℕ} (h : b < 128) : (b + 128) &&& 128 ≠ 0 := by
  have e : b + 128 = b ||| 128 := (or_shiftLeft_eq_add (i := 7) h 1).symm
  have : (b + 128) &&& 128 = 128 := by
    rw [e, Nat.and_or_distrib_right, and_128_of_lt h, Nat.and_self, Nat.zero_or]
  omega

/-- One run of the decoder's loop over an encoded value: the bits read so far stay below the
current shift, the encoded ones are joined above it. -/
theorem getVarintPtr_encodeVarint {width lastShift : ℕ} (hlast : width ≤ lastShift + 7)
    (h7 : 7 ∣ lastShift) (t : Bytes) :
    ∀ (v shift result : ℕ), 7 ∣ shift → shift ≤ lastShift → result < 2 ^ shift → v < 2 ^ (width - shift) →
      getVarintPtr width lastShift shift result (encodeVarint v ++ t) =
        some (result + v * 2 ^ shift, t) := by
  intro v
  induction v using Nat.strongRecOn with
  | ind v ih =>
      intro shift result hd hs hr hv
      by_cases hge : v ≥ 128
      · have hlt : shift + 7 < width := by
          by_contra hc
          have : 2 ^ (width - shift) ≤ 2 ^ 7 := Nat.pow_le_pow_right (by decide) (by omega)
          omega
        have hbyte : (UInt8.ofNat (v % 128 + 128)).toNat = v % 128 + 128 := by
          rw [UInt8.toNat_ofNat']; omega
        have hlow : v % 128 + 128 &&& 127 = v % 128 := by
          rw [show (127 : ℕ) = 2 ^ 7 - 1 from rfl, Nat.and_two_pow_sub_one_eq_mod]; omega
        have hpow : 2 ^ (shift + 7) = 2 ^ shift * 128 := Nat.pow_add 2 shift 7
        have hfit : (v % 128) * 2 ^ shift < 2 ^ width := by
          have h1 : (v % 128) * 2 ^ shift < 128 * 2 ^ shift :=
            Nat.mul_lt_mul_of_pos_right (Nat.mod_lt v (by decide)) (Nat.two_pow_pos shift)
          have h2 : 2 ^ (shift + 7) ≤ 2 ^ width := Nat.pow_le_pow_right (by decide) (by omega)
          rw [hpow, Nat.mul_comm] at h2
          omega
        have hdiv : v / 128 < 2 ^ (width - (shift + 7)) := by
          apply Nat.div_lt_of_lt_mul
          have : 128 * 2 ^ (width - (shift + 7)) = 2 ^ (width - shift) := by
            rw [show width - shift = 7 + (width - (shift + 7)) by omega, Nat.pow_add]
          omega
        rw [encodeVarint_of_ge hge, List.cons_append, getVarintPtr, if_pos hs]
        simp only [hbyte]
        rw [if_pos (add_128_and_128 (Nat.mod_lt v (by decide))), hlow, Nat.shiftLeft_eq,
          Nat.mod_eq_of_lt hfit, ← Nat.shiftLeft_eq, or_shiftLeft_eq_add hr,
          ih (v / 128) (by omega) (shift + 7) _ (by omega) (by omega) ?_ hdiv]
        · congr 2
          rw [hpow]
          calc result + v % 128 * 2 ^ shift + v / 128 * (2 ^ shift * 128)
              = result + (v % 128 + 128 * (v / 128)) * 2 ^ shift := by ring
            _ = result + v * 2 ^ shift := by rw [Nat.mod_add_div]
        · rw [hpow]
          have h1 : (v % 128) * 2 ^ shift ≤ 127 * 2 ^ shift :=
            Nat.mul_le_mul_right _ (by omega)
          omega
      · have hbyte : (UInt8.ofNat v).toNat = v := by rw [UInt8.toNat_ofNat']; omega
        have hfit : v * 2 ^ shift < 2 ^ width := by
          by_cases hsw : shift ≤ width
          · have : 2 ^ width = 2 ^ (width - shift) * 2 ^ shift := by
              rw [← Nat.pow_add, Nat.sub_add_cancel hsw]
            rw [this]
            exact Nat.mul_lt_mul_of_pos_right hv (Nat.two_pow_pos shift)
          · have : width - shift = 0 := by omega
            rw [this] at hv
            obtain rfl : v = 0 := by omega
            rw [Nat.zero_mul]
            exact Nat.two_pow_pos width
        rw [encodeVarint_of_lt (by omega), List.singleton_append, getVarintPtr, if_pos hs]
        simp only [hbyte]
        rw [if_neg (by simp [and_128_of_lt (show v < 128 by omega)]), Nat.shiftLeft_eq,
          Nat.mod_eq_of_lt hfit, ← Nat.shiftLeft_eq, or_shiftLeft_eq_add hr, Nat.shiftLeft_eq]

/-- Decoding what `PutVarint32` wrote gives the value and leaves the bytes behind it. -/
theorem getVarint32_putVarint32 {v : ℕ} (h : v < 2 ^ 32) (t : Bytes) :
    getVarint32 (putVarint32 v ++ t) = some (v, t) := by
  rw [getVarint32, putVarint32, Nat.mod_eq_of_lt h,
    getVarintPtr_encodeVarint (by decide) (by decide) t v 0 0 (by decide) (by decide) (by decide) h]
  simp

theorem getVarint64_putVarint64 {v : ℕ} (h : v < 2 ^ 64) (t : Bytes) :
    getVarint64 (putVarint64 v ++ t) = some (v, t) := by
  rw [getVarint64, putVarint64, Nat.mod_eq_of_lt h,
    getVarintPtr_encodeVarint (by decide) (by decide) t v 0 0 (by decide) (by decide) (by decide) h]
  simp

theorem getLengthPrefixedSlice_put {s : Bytes} (h : s.length < 2 ^ 32) (t : Bytes) :
    getLengthPrefixedSlice (putLengthPrefixedSlice s ++ t) = some (s, t) := by
  unfold getLengthPrefixedSlice putLengthPrefixedSlice
  rw [List.append_assoc, getVarint32_putVarint32 h]
  simp

/-- The loop leaves a proper suffix of its input. -/
theorem getVarintPtr_suffix {width lastShift : ℕ} :
    ∀ {shift result : ℕ} {p : Bytes} {v : ℕ} {rest : Bytes},
      getVarintPtr width lastShift shift result p = some (v, rest) →
      ∃ used, used ≠ [] ∧ p = used ++ rest
  | _, _, [], _, _, h => by simp [getVarintPtr] at h
  | shift, result, x :: p, v, rest, h => by
      rw [getVarintPtr] at h
      split_ifs at h with h1 h2
      · obtain ⟨used, -, rfl⟩ := getVarintPtr_suffix h
        exact ⟨x :: used, by simp, rfl⟩
      · obtain ⟨-, rfl⟩ := Prod.mk.inj (Option.some.inj h)
        exact ⟨[x], by simp, rfl⟩

/-! ### The variables of the caller -/

/-- The loop with the variable `*value`: the pointer it returns, as the bytes from there on, and the
variable. -/
def getVarintPtrInto (width lastShift : ℕ) : ℕ → ℕ → Bytes → ℕ → Option Bytes × ℕ
  | _, _, [], value => (none, value)
  | shift, result, p :: rest, value =>
      if shift ≤ lastShift then
        if p.toNat &&& 128 ≠ 0 then
          getVarintPtrInto width lastShift (shift + 7)
            (result ||| (((p.toNat &&& 127) <<< shift) % 2 ^ width)) rest value
        else (some rest, result ||| ((p.toNat <<< shift) % 2 ^ width))
      else (none, value)

/-- `GetVarint32(&input, &value)`: what it returns, and its two variables behind the call. -/
def getVarint32Into (input : Bytes) (value : ℕ) : Bool × Bytes × ℕ :=
  match getVarintPtrInto 32 28 0 0 input value with
  | (none, value) => (false, input, value)
  | (some q, value) => (true, q, value)

/-- `GetVarint64(&input, &value)`. -/
def getVarint64Into (input : Bytes) (value : ℕ) : Bool × Bytes × ℕ :=
  match getVarintPtrInto 64 63 0 0 input value with
  | (none, value) => (false, input, value)
  | (some q, value) => (true, q, value)

/-- The variable is set where the loop succeeds, and only there. -/
theorem getVarintPtrInto_eq (width lastShift shift result : ℕ) (p : Bytes) (value : ℕ) :
    getVarintPtrInto width lastShift shift result p value =
      match getVarintPtr width lastShift shift result p with
      | none => (none, value)
      | some (v, rest) => (some rest, v) := by
  induction p generalizing shift result with
  | nil => rfl
  | cons x p ih =>
      rw [getVarintPtrInto, getVarintPtr]
      split_ifs with hshift hbit
      · exact ih _ _
      · rfl
      · rfl

/-- All bytes of an encoding but the last one have the high bit set, so the loop runs off a part of it. -/
theorem getVarintPtr_prefix {width lastShift shift result v : ℕ} {p : Bytes} (hp : p <+: encodeVarint v)
    (hne : p ≠ encodeVarint v) : getVarintPtr width lastShift shift result p = none := by
  induction p generalizing v shift result with
  | nil => rfl
  | cons x p ih =>
      by_cases hge : v ≥ 128
      · rw [encodeVarint_of_ge hge, List.cons_prefix_cons] at hp
        obtain ⟨rfl, hp⟩ := hp
        have hrest : p ≠ encodeVarint (v / 128) := by
          rintro rfl
          exact hne (encodeVarint_of_ge hge).symm
        have hbyte : (UInt8.ofNat (v % 128 + 128)).toNat = v % 128 + 128 := by
          rw [UInt8.toNat_ofNat']
          omega
        rw [getVarintPtr, hbyte, if_pos (add_128_and_128 (Nat.mod_lt v (by decide)))]
        split_ifs
        · exact ih hp hrest
        · rfl
      · rw [encodeVarint_of_lt (by omega)] at hp hne
        obtain ⟨rfl, hnil⟩ := List.cons_prefix_cons.mp hp
        rw [List.prefix_nil.mp hnil] at hne
        exact absurd rfl hne

/-- A decoder gives `v` for the bytes `enc` whatever is behind them, and on a part of them it fails and
changes neither of its variables. -/
def Decodes (get : Bytes → ℕ → Bool × Bytes × ℕ) (enc : Bytes) (v : ℕ) : Prop :=
  ∀ value, (∀ t, get (enc ++ t) value = (true, t, v)) ∧
    ∀ p, p <+: enc → p ≠ enc → get p value = (false, p, value)

/-- **The varints.** -/
theorem varints_decode (v : UInt32) (w : UInt64) :
    ((putVarint32 v.toNat).length ≤ 5 ∧ Decodes getVarint32Into (putVarint32 v.toNat) v.toNat) ∧
      (putVarint64 w.toNat).length ≤ 10 ∧ Decodes getVarint64Into (putVarint64 w.toNat) w.toNat := by
  refine ⟨⟨putVarint32_length_le _, ?_⟩, putVarint64_length_le _, ?_⟩
  · intro value
    constructor
    · intro t
      have hget := getVarint32_putVarint32 v.toNat_lt t
      rw [getVarint32] at hget
      rw [getVarint32Into, getVarintPtrInto_eq, hget]
    · intro p hp hne
      rw [getVarint32Into, getVarintPtrInto_eq, getVarintPtr_prefix hp hne]
  · intro value
    constructor
    · intro t
      have hget := getVarint64_putVarint64 w.toNat_lt t
      rw [getVarint64] at hget
      rw [getVarint64Into, getVarintPtrInto_eq, hget]
    · intro p hp hne
      rw [getVarint64Into, getVarintPtrInto_eq, getVarintPtr_prefix hp hne]

end MiniLevelDB
