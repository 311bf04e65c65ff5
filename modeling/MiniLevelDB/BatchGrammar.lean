import MiniLevelDB.WriteBatch

/-! # The grammar of write batches

What a well-formed record is, said without the decoder: a varint is some bytes with the high bit set
and one without it, a slice is its length and its bytes, a record is a tag and one slice or two.
`readRecord_iff` is the agreement of the decoder with it; `splitRecords` reads as many records as
there are (`splitRecords_longest`). -/

namespace MiniLevelDB

/-! ### The grammar -/

/-- The number seven bits of each byte spell, the lowest first. -/
def base128 : Bytes → ℕ
  | [] => 0
  | b :: bs => b.toNat % 128 + 128 * base128 bs

/-- The bytes are a varint for the 32-bit number `v`; bits above the 32nd are lost. -/
def IsVarint32 (bytes : Bytes) (v : ℕ) : Prop :=
  ∃ init last, bytes = init ++ [last] ∧ (∀ b ∈ init, 128 ≤ b.toNat) ∧ last.toNat < 128 ∧
    init.length ≤ 4 ∧ v = base128 bytes % 2 ^ 32

/-- The bytes are the slice `s` behind its length. -/
def IsSlice (bytes s : Bytes) : Prop := ∃ len, bytes = len ++ s ∧ IsVarint32 len s.length

/-- The bytes are a record of the operation. -/
def IsRecord (bytes : Bytes) : WriteOp → Prop
  | .put key value => ∃ k v, bytes = 1 :: (k ++ v) ∧ IsSlice k key ∧ IsSlice v value
  | .delete key => ∃ k, bytes = 0 :: k ∧ IsSlice k key

/-- The bytes are records of the operations, one behind the other. -/
def AreRecords (bytes : Bytes) (ops : List WriteOp) : Prop :=
  ∃ records, bytes = records.flatten ∧ List.Forall₂ IsRecord records ops

/-- The operations of the longest part at the front of the bytes that consists of records. -/
def LongestRecords (bytes : Bytes) (ops : List WriteOp) : Prop :=
  (∃ front, front <+: bytes ∧ AreRecords front ops) ∧
    ∀ front ops', front <+: bytes → AreRecords front ops' → ops' <+: ops

theorem AreRecords.nil : AreRecords [] [] := ⟨[], rfl, .nil⟩

theorem AreRecords.cons {bytes front : Bytes} {op : WriteOp} {ops : List WriteOp}
    (h : IsRecord bytes op) (hs : AreRecords front ops) : AreRecords (bytes ++ front) (op :: ops) := by
  obtain ⟨records, rfl, hrecords⟩ := hs
  exact ⟨bytes :: records, rfl, .cons h hrecords⟩

/-! ### The decoder -/

theorem byte_and_128 (b : UInt8) : b.toNat &&& 128 ≠ 0 ↔ 128 ≤ b.toNat := by
  have hlt := b.toNat_lt
  rcases Nat.lt_or_ge b.toNat 128 with h | h
  · exact iff_of_false (not_not.mpr (and_128_of_lt h)) (not_le.mpr h)
  · have hsplit : b.toNat = (b.toNat - 128) + 128 := by omega
    refine iff_of_true ?_ h
    rw [hsplit]
    exact add_128_and_128 (by omega)

/-- Bits joined above the ones read so far, in a 32-bit result. -/
theorem or_shiftLeft_mod {result shift : ℕ} (hr : result < 2 ^ shift) (h32 : result < 2 ^ 32) (x : ℕ) :
    result ||| ((x <<< shift) % 2 ^ 32) = (result + x * 2 ^ shift) % 2 ^ 32 := by
  rcases Nat.lt_or_ge 32 shift with hs | hs
  · have hzero : (x <<< shift) % 2 ^ 32 = 0 := by
      rw [Nat.shiftLeft_eq]
      exact Nat.mod_eq_zero_of_dvd (Dvd.dvd.mul_left (Nat.pow_dvd_pow 2 hs.le) x)
    rw [hzero, Nat.or_zero, Nat.add_mod, ← Nat.shiftLeft_eq, hzero, Nat.add_zero, Nat.mod_mod,
      Nat.mod_eq_of_lt h32]
  · have hpow : (2 : ℕ) ^ 32 = 2 ^ shift * 2 ^ (32 - shift) := by
      rw [← Nat.pow_add, Nat.add_sub_cancel' hs]
    have hmod : (x <<< shift) % 2 ^ 32 = (x % 2 ^ (32 - shift)) <<< shift := by
      rw [Nat.shiftLeft_eq, Nat.shiftLeft_eq, Nat.mul_comm x, hpow, Nat.mul_mod_mul_left, Nat.mul_comm]
    have hlow : (result + 2 ^ shift * x) % 2 ^ shift = result := by
      rw [Nat.add_mul_mod_self_left, Nat.mod_eq_of_lt hr]
    have hhigh : (result + 2 ^ shift * x) / 2 ^ shift = x := by
      rw [Nat.add_mul_div_left _ _ (Nat.two_pow_pos shift), Nat.div_eq_of_lt hr, Nat.zero_add]
    rw [hmod, or_shiftLeft_eq_add hr, hpow, Nat.mul_comm x, Nat.mod_mul, hlow, hhigh, Nat.mul_comm]

/-- The decoder's loop accepts continuation bytes up to the last shift and one final byte. -/
theorem getVarintPtr_iff {shift result v : ℕ} {p rest : Bytes} (hr : result < 2 ^ shift)
    (h32 : result < 2 ^ 32) :
    getVarintPtr 32 28 shift result p = some (v, rest) ↔
      ∃ init last, p = init ++ last :: rest ∧ (∀ b ∈ init, 128 ≤ b.toNat) ∧ last.toNat < 128 ∧
        shift + 7 * init.length ≤ 28 ∧ v = (result + base128 (init ++ [last]) * 2 ^ shift) % 2 ^ 32 := by
  induction p generalizing shift result with
  | nil => simp [getVarintPtr]
  | cons b p ih =>
      rw [getVarintPtr]
      by_cases hs : shift ≤ 28
      swap
      · rw [if_neg hs]
        refine iff_of_false (by simp) ?_
        rintro ⟨init, last, -, -, -, hle, -⟩
        omega
      rw [if_pos hs]
      by_cases hb : 128 ≤ b.toNat
      · -- a continuation byte: its bits join the result
        have hlow : b.toNat &&& 127 = b.toNat % 128 := Nat.and_two_pow_sub_one_eq_mod b.toNat 7
        have hjoin : result ||| ((b.toNat % 128) <<< shift) % 2 ^ 32 =
            (result + b.toNat % 128 * 2 ^ shift) % 2 ^ 32 := or_shiftLeft_mod hr h32 _
        have hpow : (2 : ℕ) ^ (shift + 7) = 2 ^ shift * 128 := Nat.pow_add 2 shift 7
        have hbound : (result + b.toNat % 128 * 2 ^ shift) % 2 ^ 32 < 2 ^ (shift + 7) := by
          have h1 : b.toNat % 128 * 2 ^ shift ≤ 127 * 2 ^ shift := Nat.mul_le_mul_right _ (by omega)
          have h2 := Nat.mod_le (result + b.toNat % 128 * 2 ^ shift) (2 ^ 32)
          omega
        have hvalue : ∀ x, ((result + b.toNat % 128 * 2 ^ shift) % 2 ^ 32 + x * 2 ^ (shift + 7)) % 2 ^ 32 =
            (result + (b.toNat % 128 + 128 * x) * 2 ^ shift) % 2 ^ 32 := by
          intro x
          rw [Nat.mod_add_mod, hpow]
          congr 1
          ring
        rw [if_pos ((byte_and_128 b).mpr hb), hlow, hjoin, ih hbound (Nat.mod_lt _ (Nat.two_pow_pos 32))]
        constructor
        · rintro ⟨init, last, rfl, hinit, hlast, hle, rfl⟩
          refine ⟨b :: init, last, rfl, ?_, hlast, by rw [List.length_cons]; omega, ?_⟩
          · intro c hc
            rcases List.mem_cons.mp hc with rfl | hc
            · exact hb
            · exact hinit c hc
          · rw [hvalue, List.cons_append, base128]
        · rintro ⟨init, last, heq, hinit, hlast, hle, rfl⟩
          cases init with
          | nil =>
              obtain ⟨rfl, rfl⟩ := List.cons.inj heq
              omega
          | cons c init =>
              obtain ⟨rfl, rfl⟩ := List.cons.inj heq
              rw [List.length_cons] at hle
              refine ⟨init, last, rfl, fun c hc => hinit c (List.mem_cons_of_mem _ hc), hlast, by omega, ?_⟩
              rw [hvalue, List.cons_append, base128]
      · -- the final byte
        have hjoin := or_shiftLeft_mod hr h32 b.toNat
        rw [if_neg (fun h => hb ((byte_and_128 b).mp h)), hjoin]
        have hbase : base128 [b] = b.toNat := by
          rw [base128, base128, Nat.mul_zero, Nat.add_zero, Nat.mod_eq_of_lt (by omega)]
        constructor
        · intro h
          obtain ⟨rfl, rfl⟩ := Prod.mk.inj (Option.some.inj h)
          exact ⟨[], b, rfl, by simp, by omega, by simpa using hs, by rw [List.nil_append, hbase]⟩
        · rintro ⟨init, last, heq, hinit, hlast, hle, rfl⟩
          cases init with
          | nil =>
              obtain ⟨rfl, rfl⟩ := List.cons.inj heq
              rw [List.nil_append, hbase]
          | cons c init =>
              obtain ⟨rfl, rfl⟩ := List.cons.inj heq
              exact absurd (hinit b List.mem_cons_self) hb

theorem getVarint32_iff {v : ℕ} {input rest : Bytes} :
    getVarint32 input = some (v, rest) ↔ ∃ bytes, input = bytes ++ rest ∧ IsVarint32 bytes v := by
  rw [getVarint32, getVarintPtr_iff (by decide) (by decide)]
  constructor
  · rintro ⟨init, last, rfl, hinit, hlast, hle, hv⟩
    refine ⟨init ++ [last], by simp, init, last, rfl, hinit, hlast, by omega, ?_⟩
    rw [hv, Nat.pow_zero, Nat.mul_one, Nat.zero_add]
  · rintro ⟨bytes, rfl, init, last, rfl, hinit, hlast, hle, hv⟩
    refine ⟨init, last, by simp, hinit, hlast, by omega, ?_⟩
    rw [hv, Nat.pow_zero, Nat.mul_one, Nat.zero_add]

theorem getLengthPrefixedSlice_iff {s input rest : Bytes} :
    getLengthPrefixedSlice input = some (s, rest) ↔ ∃ bytes, input = bytes ++ rest ∧ IsSlice bytes s := by
  constructor
  · intro h
    unfold getLengthPrefixedSlice at h
    cases hv : getVarint32 input with
    | none => simp [hv] at h
    | some q =>
        obtain ⟨len, input'⟩ := q
        obtain ⟨bytes, rfl, hbytes⟩ := getVarint32_iff.mp hv
        simp only [hv] at h
        split_ifs at h with hle
        obtain ⟨rfl, rfl⟩ := Prod.mk.inj (Option.some.inj h)
        refine ⟨bytes ++ input'.take len, by rw [List.append_assoc, List.take_append_drop], bytes, rfl, ?_⟩
        rwa [List.length_take_of_le hle]
  · rintro ⟨bytes, rfl, len, rfl, hlen⟩
    have hv : getVarint32 (len ++ (s ++ rest)) = some (s.length, s ++ rest) :=
      getVarint32_iff.mpr ⟨len, rfl, hlen⟩
    unfold getLengthPrefixedSlice
    rw [List.append_assoc, hv]
    simp

namespace WriteBatch

/-- **The decoder reads a record exactly where the grammar has one.** -/
theorem readRecord_iff {tag : UInt8} {input rest : Bytes} {op : WriteOp} :
    readRecord tag input = .ok (op, rest) ↔ ∃ bytes, tag :: input = bytes ++ rest ∧ IsRecord bytes op := by
  constructor
  · intro h
    unfold readRecord at h
    split_ifs at h with hput hdelete
    · subst hput
      cases hk : getLengthPrefixedSlice input with
      | none => simp [hk] at h
      | some p =>
          obtain ⟨key, input'⟩ := p
          simp only [hk] at h
          cases hv : getLengthPrefixedSlice input' with
          | none => simp [hv] at h
          | some q =>
              obtain ⟨value, input''⟩ := q
              simp only [hv] at h
              obtain ⟨rfl, rfl⟩ := Prod.mk.inj (Except.ok.inj h)
              obtain ⟨k, rfl, hkey⟩ := getLengthPrefixedSlice_iff.mp hk
              obtain ⟨v, rfl, hvalue⟩ := getLengthPrefixedSlice_iff.mp hv
              exact ⟨1 :: (k ++ v), by simp, k, v, rfl, hkey, hvalue⟩
    · subst hdelete
      cases hk : getLengthPrefixedSlice input with
      | none => simp [hk] at h
      | some p =>
          obtain ⟨key, input'⟩ := p
          simp only [hk] at h
          obtain ⟨rfl, rfl⟩ := Prod.mk.inj (Except.ok.inj h)
          obtain ⟨k, rfl, hkey⟩ := getLengthPrefixedSlice_iff.mp hk
          exact ⟨0 :: k, rfl, k, rfl, hkey⟩
  · rintro ⟨bytes, heq, hrecord⟩
    cases op with
    | put key value =>
        obtain ⟨k, v, rfl, hkey, hvalue⟩ := hrecord
        obtain ⟨rfl, rfl⟩ := List.cons.inj heq
        have hk : getLengthPrefixedSlice (k ++ (v ++ rest)) = some (key, v ++ rest) :=
          getLengthPrefixedSlice_iff.mpr ⟨k, rfl, hkey⟩
        have hv : getLengthPrefixedSlice (v ++ rest) = some (value, rest) :=
          getLengthPrefixedSlice_iff.mpr ⟨v, rfl, hvalue⟩
        unfold readRecord
        simp only [List.append_eq, List.append_assoc, hk, hv, if_true]
    | delete key =>
        obtain ⟨k, rfl, hkey⟩ := hrecord
        obtain ⟨rfl, rfl⟩ := List.cons.inj heq
        have hk : getLengthPrefixedSlice (k ++ rest) = some (key, rest) :=
          getLengthPrefixedSlice_iff.mpr ⟨k, rfl, hkey⟩
        unfold readRecord
        rw [if_neg (by decide), if_pos rfl]
        simp only [List.append_eq, hk]

theorem readRecord_error {tag : UInt8} {input : Bytes} {s : Status}
    (h : readRecord tag input = .error s) : s ≠ Status.OK := by
  rintro rfl
  unfold readRecord at h
  split at h
  · split at h
    · cases h
    · split at h <;> cases h
  · split at h
    · split at h <;> cases h
    · cases h

/-! ### As many records as there are -/

/-- The records at the front of the input, and what is left. -/
def splitRecords (input : Bytes) : List WriteOp × Bytes :=
  match input with
  | [] => ([], [])
  | tag :: input =>
      match _ : readRecord tag input with
      | .error _ => ([], tag :: input)
      | .ok (op, rest) =>
          let r := splitRecords rest
          (op :: r.1, r.2)
termination_by input.length
decreasing_by
  have := readRecord_length (by assumption)
  simp only [List.length_cons]
  omega

theorem splitRecords_cons {tag : UInt8} {input rest : Bytes} {op : WriteOp}
    (h : readRecord tag input = .ok (op, rest)) :
    splitRecords (tag :: input) = (op :: (splitRecords rest).1, (splitRecords rest).2) := by
  rw [splitRecords]
  split
  · rename_i hs
    rw [h] at hs
    cases hs
  · rename_i hs
    rw [h] at hs
    obtain ⟨rfl, rfl⟩ := Prod.mk.inj (Except.ok.inj hs)
    rfl

theorem splitRecords_error {tag : UInt8} {input : Bytes} {s : Status}
    (h : readRecord tag input = .error s) : splitRecords (tag :: input) = ([], tag :: input) := by
  rw [splitRecords]
  split
  · rfl
  · rename_i hs
    rw [h] at hs
    cases hs

/-- The records read are records. -/
theorem splitRecords_front (input : Bytes) :
    ∃ front, input = front ++ (splitRecords input).2 ∧ AreRecords front (splitRecords input).1 := by
  induction input using splitRecords.induct with
  | case1 =>
      rw [splitRecords]
      exact ⟨[], rfl, AreRecords.nil⟩
  | case2 tag input s h =>
      rw [splitRecords_error h]
      exact ⟨[], rfl, AreRecords.nil⟩
  | case3 tag input op rest h ih =>
      rw [splitRecords_cons h]
      obtain ⟨front, hsplit, hfront⟩ := ih
      obtain ⟨bytes, heq, hrecord⟩ := readRecord_iff.mp h
      refine ⟨bytes ++ front, ?_, AreRecords.cons hrecord hfront⟩
      rw [List.append_assoc, ← hsplit, heq]

/-- Any records at the front of the input are among those read, and if they leave nothing, they are
all of them. -/
theorem splitRecords_le {input front : Bytes} {ops : List WriteOp} (hpre : front <+: input)
    (h : AreRecords front ops) :
    ops <+: (splitRecords input).1 ∧ (front = input → splitRecords input = (ops, [])) := by
  obtain ⟨records, rfl, hrecords⟩ := h
  induction hrecords generalizing input with
  | nil =>
      refine ⟨List.nil_prefix, ?_⟩
      rintro rfl
      rw [List.flatten_nil, splitRecords]
  | @cons bytes op records ops hrecord _ ih =>
      obtain ⟨t, rfl⟩ := hpre
      -- a record is not empty
      obtain ⟨tag, rest, rfl⟩ : ∃ tag rest, bytes = tag :: rest := by
        cases op with
        | put key value =>
            obtain ⟨k, v, rfl, -⟩ := hrecord
            exact ⟨_, _, rfl⟩
        | delete key =>
            obtain ⟨k, rfl, -⟩ := hrecord
            exact ⟨_, _, rfl⟩
      have hread : readRecord tag (rest ++ (records.flatten ++ t)) = .ok (op, records.flatten ++ t) :=
        readRecord_iff.mpr ⟨tag :: rest, rfl, hrecord⟩
      have hinput : ((tag :: rest) :: records).flatten ++ t = tag :: (rest ++ (records.flatten ++ t)) := by
        simp
      obtain ⟨hle, hall⟩ := @ih (records.flatten ++ t) (List.prefix_append _ _)
      rw [hinput, splitRecords_cons hread]
      refine ⟨(List.prefix_cons_inj op).mpr hle, fun heq => ?_⟩
      have hnil : records.flatten = records.flatten ++ t := by simpa using heq
      rw [hall hnil]

/-- **The records read are the longest part that consists of records.** -/
theorem splitRecords_longest (input : Bytes) : LongestRecords input (splitRecords input).1 := by
  obtain ⟨front, hsplit, hfront⟩ := splitRecords_front input
  refine ⟨⟨front, ⟨_, hsplit.symm⟩, hfront⟩, fun front ops hpre h => (splitRecords_le hpre h).1⟩

theorem areRecords_iff {input : Bytes} {ops : List WriteOp} :
    AreRecords input ops ↔ splitRecords input = (ops, []) := by
  constructor
  · exact fun h => (splitRecords_le List.prefix_rfl h).2 rfl
  · intro h
    obtain ⟨front, hsplit, hfront⟩ := splitRecords_front input
    rw [h] at hsplit hfront
    rw [hsplit, List.append_nil]
    exact hfront

/-! ### The loop of `Iterate` -/

/-- The operations with consecutive sequence numbers, which are 64 bits wide. -/
def numberedFrom (seq : ℕ) (ops : List WriteOp) : List (ℕ × WriteOp) :=
  ops.mapIdx fun i op => ((seq + i) % 2 ^ 64, op)

theorem numberedFrom_cons {seq : ℕ} (hseq : seq < 2 ^ 64) (op : WriteOp) (ops : List WriteOp) :
    numberedFrom seq (op :: ops) = (seq, op) :: numberedFrom ((seq + 1) % 2 ^ 64) ops := by
  rw [numberedFrom, List.mapIdx_cons, Nat.add_zero, Nat.mod_eq_of_lt hseq]
  refine congrArg (_ :: ·) (List.mapIdx_eq_mapIdx_iff.mpr fun i hi => ?_)
  rw [Nat.mod_add_mod]
  congr 2
  omega

theorem iterateLoop_error {tag : UInt8} {input : Bytes} {s : Status} {seq remaining : ℕ}
    (hne : remaining ≠ 0) (h : readRecord tag input = .error s) :
    iterateLoop (tag :: input) seq remaining = (s, []) := by
  rw [iterateLoop, if_neg hne]
  split
  · rename_i hs
    rw [h] at hs
    rw [Except.error.inj hs]
  · rename_i hs
    rw [h] at hs
    cases hs

/-- **The loop of `Iterate`** hands over the records it finds, as many as it may, and is content
when these are exactly as many and nothing is left. -/
theorem iterateLoop_eq {seq : ℕ} (hseq : seq < 2 ^ 64) (input : Bytes) (remaining : ℕ) :
    (iterateLoop input seq remaining).2 = numberedFrom seq ((splitRecords input).1.take remaining) ∧
      ((iterateLoop input seq remaining).1 = Status.OK ↔
        (splitRecords input).2 = [] ∧ (splitRecords input).1.length = remaining) := by
  induction input using splitRecords.induct generalizing seq remaining with
  | case1 =>
      rw [iterateLoop, splitRecords]
      split
      · rename_i hne
        refine ⟨by rw [List.take_nil]; rfl, iff_of_false (by decide) ?_⟩
        rintro ⟨-, hlen⟩
        exact hne hlen.symm
      · rename_i hzero
        rw [not_not.mp hzero]
        exact ⟨rfl, iff_of_true rfl ⟨rfl, rfl⟩⟩
  | case2 tag input s h =>
      have hrest : ¬ ((splitRecords (tag :: input)).2 = [] ∧
          (splitRecords (tag :: input)).1.length = remaining) := by
        rw [splitRecords_error h]
        rintro ⟨hnil, -⟩
        cases hnil
      have hops : (splitRecords (tag :: input)).1.take remaining = [] := by
        rw [splitRecords_error h, List.take_nil]
      rw [hops]
      by_cases hzero : remaining = 0
      · rw [iterateLoop, if_pos hzero]
        exact ⟨rfl, iff_of_false (by decide) hrest⟩
      · rw [iterateLoop_error hzero h]
        exact ⟨rfl, iff_of_false (readRecord_error h) hrest⟩
  | case3 tag input op rest h ih =>
      cases remaining with
      | zero =>
          rw [iterateLoop, if_pos rfl, splitRecords_cons h]
          refine ⟨rfl, iff_of_false (by decide) ?_⟩
          rintro ⟨-, hlen⟩
          cases hlen
      | succ remaining =>
          obtain ⟨hcalls, hstatus⟩ := @ih ((seq + 1) % 2 ^ 64) (Nat.mod_lt _ (by decide)) remaining
          rw [iterateLoop_cons h, splitRecords_cons h]
          refine ⟨?_, ?_⟩
          · rw [hcalls, List.take_succ_cons, numberedFrom_cons hseq]
          · rw [hstatus]
            simp

end WriteBatch
end MiniLevelDB
