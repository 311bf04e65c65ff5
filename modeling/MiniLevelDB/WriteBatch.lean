import MiniLevelDB.DbFormat
import MiniLevelDB.Status

/-! # Write batches

`db/write_batch.cc`.  A batch is the byte string it is logged as: sequence number, count, records;
the type carries that the header is there.  `iterate` returns its status together with the calls
it made to the handler on the way, each with its sequence number.

`iterate_encodeOps` is the round trip: a batch of operations whose keys and values are shorter than
`2 ^ 32` hands exactly these operations to the handler. -/

namespace MiniLevelDB

/-- A call to the handler without its sequence number. -/
inductive WriteOp where
  | put (key value : Bytes)
  | delete (key : Bytes)
deriving DecidableEq, Repr

namespace WriteOp

def key : WriteOp → Bytes
  | put k _ => k
  | delete k => k

/-- `kTagValue` and `kTagDeletion`. -/
def type : WriteOp → ValueType
  | put _ _ => .kTypeValue
  | delete _ => .kTypeDeletion

/-- The value a handler stores; none for a deletion. -/
def value : WriteOp → Bytes
  | put _ v => v
  | delete _ => []

/-- The record of an operation. -/
def encode : WriteOp → Bytes
  | put k v => 1 :: (putLengthPrefixedSlice k ++ putLengthPrefixedSlice v)
  | delete k => 0 :: putLengthPrefixedSlice k

/-- Lengths that a batch can represent. -/
def Fits (op : WriteOp) : Prop := op.key.length < 2 ^ 32 ∧ op.value.length < 2 ^ 32

end WriteOp

def kHeader : ℕ := 12

/-- `WriteBatch`: `rep_`, at least a header long. -/
structure WriteBatch where
  rep : Bytes
  header_le : kHeader ≤ rep.length

theorem getVarint32_length {input rest : Bytes} {v : ℕ} (h : getVarint32 input = some (v, rest)) :
    rest.length < input.length := by
  obtain ⟨used, hne, rfl⟩ := getVarintPtr_suffix h
  have := List.length_pos_iff.mpr hne
  rw [List.length_append]
  omega

theorem getLengthPrefixedSlice_length {input s rest : Bytes}
    (h : getLengthPrefixedSlice input = some (s, rest)) : rest.length < input.length := by
  unfold getLengthPrefixedSlice at h
  cases hv : getVarint32 input with
  | none => simp [hv] at h
  | some p =>
      obtain ⟨len, input'⟩ := p
      have hlt := getVarint32_length hv
      simp only [hv] at h
      split at h
      · obtain ⟨-, rfl⟩ := Prod.mk.inj (Option.some.inj h)
        rw [List.length_drop]
        omega
      · cases h

namespace WriteBatch

/-- `WriteBatch()`, `Clear`. -/
def empty : WriteBatch := ⟨List.replicate kHeader 0, by simp⟩

/-- The count field as the `uint32_t` that is stored. -/
def storedCount (b : WriteBatch) : ℕ := decodeFixed32 (b.rep.drop 8)

/-- `Count`: the count field as an `int`. -/
def count (b : WriteBatch) : ℤ :=
  if b.storedCount < 2 ^ 31 then b.storedCount else (b.storedCount : ℤ) - 2 ^ 32

/-- `sequence`. -/
def sequence (b : WriteBatch) : ℕ := decodeFixed64 b.rep

/-- `set_sequence`. -/
def set_sequence (b : WriteBatch) (seq : ℕ) : WriteBatch :=
  ⟨encodeFixed64 seq ++ b.rep.drop 8, by
    have := b.header_le
    simp only [kHeader, List.length_append, encodeFixed64_length, List.length_drop] at *
    omega⟩

/-- A record is appended and the count raised. -/
def addRecord (b : WriteBatch) (record : Bytes) : WriteBatch :=
  ⟨(b.rep ++ record).take 8 ++ encodeFixed32 (b.storedCount + 1) ++ (b.rep ++ record).drop 12, by
    have := b.header_le
    simp only [kHeader, List.length_append, encodeFixed32_length, List.length_drop,
      List.length_take] at *
    omega⟩

/-- `Put`. -/
def put (b : WriteBatch) (key value : Bytes) : WriteBatch :=
  b.addRecord (1 :: (putLengthPrefixedSlice key ++ putLengthPrefixedSlice value))

/-- `Delete`. -/
def delete (b : WriteBatch) (key : Bytes) : WriteBatch :=
  b.addRecord (0 :: putLengthPrefixedSlice key)

/-- `SetContents`; a string shorter than a header is refused. -/
def setContents (contents : Bytes) : Except Status WriteBatch :=
  if h : contents.length < kHeader then
    .error (Status.corruption "malformed WriteBatch (too small)")
  else .ok ⟨contents, not_lt.mp h⟩

/-- The record behind a tag byte, and the input behind the record. -/
def readRecord (tag : UInt8) (input : Bytes) : Except Status (WriteOp × Bytes) :=
  if tag = 1 then
    match getLengthPrefixedSlice input with
    | none => .error (Status.corruption "bad WriteBatch Put")
    | some (key, input) =>
        match getLengthPrefixedSlice input with
        | none => .error (Status.corruption "bad WriteBatch Put")
        | some (value, input) => .ok (.put key value, input)
  else if tag = 0 then
    match getLengthPrefixedSlice input with
    | none => .error (Status.corruption "bad WriteBatch Delete")
    | some (key, input) => .ok (.delete key, input)
  else .error (Status.corruption "unknown WriteBatch tag")

theorem readRecord_length {tag : UInt8} {input rest : Bytes} {op : WriteOp}
    (h : readRecord tag input = .ok (op, rest)) : rest.length < input.length := by
  unfold readRecord at h
  split_ifs at h
  · cases hk : getLengthPrefixedSlice input with
    | none => simp [hk] at h
    | some p =>
        obtain ⟨key, input'⟩ := p
        simp only [hk] at h
        cases hv : getLengthPrefixedSlice input' with
        | none => simp [hv] at h
        | some q =>
            obtain ⟨value, input''⟩ := q
            simp only [hv] at h
            obtain ⟨-, rfl⟩ := Prod.mk.inj (Except.ok.inj h)
            exact (getLengthPrefixedSlice_length hv).trans (getLengthPrefixedSlice_length hk)
  · cases hk : getLengthPrefixedSlice input with
    | none => simp [hk] at h
    | some p =>
        obtain ⟨key, input'⟩ := p
        simp only [hk] at h
        obtain ⟨-, rfl⟩ := Prod.mk.inj (Except.ok.inj h)
        exact getLengthPrefixedSlice_length hk

/-- The loop of `Iterate`: its status and the calls to the handler. -/
def iterateLoop (input : Bytes) (seq remaining : ℕ) : Status × List (ℕ × WriteOp) :=
  match input with
  | [] =>
      if remaining ≠ 0 then (Status.corruption "WriteBatch has wrong count", []) else (Status.OK, [])
  | tag :: input =>
      if remaining = 0 then (Status.corruption "WriteBatch has too many records", [])
      else
        match h : readRecord tag input with
        | .error s => (s, [])
        | .ok (op, rest) =>
            let r := iterateLoop rest ((seq + 1) % 2 ^ 64) (remaining - 1)
            (r.1, (seq, op) :: r.2)
termination_by input.length
decreasing_by
  have := readRecord_length h
  simp only [List.length_cons]
  omega

/-- `Iterate`. -/
def iterate (b : WriteBatch) : Status × List (ℕ × WriteOp) :=
  iterateLoop (b.rep.drop kHeader) b.sequence (b.count % 2 ^ 64).toNat

theorem iterateLoop_cons {tag : UInt8} {input rest : Bytes} {op : WriteOp} {seq remaining : ℕ}
    (h : readRecord tag input = .ok (op, rest)) :
    iterateLoop (tag :: input) seq (remaining + 1) =
      ((iterateLoop rest ((seq + 1) % 2 ^ 64) remaining).1,
        (seq, op) :: (iterateLoop rest ((seq + 1) % 2 ^ 64) remaining).2) := by
  rw [iterateLoop, if_neg (Nat.succ_ne_zero _)]
  split
  · rename_i s hs
    rw [h] at hs
    cases hs
  · rename_i op' rest' hs
    rw [h] at hs
    obtain ⟨rfl, rfl⟩ := Prod.mk.inj (Except.ok.inj hs)
    rfl

/-! ### Round trip -/

theorem readRecord_encode {op : WriteOp} (h : op.Fits) (t : Bytes) :
    ∃ tag input, op.encode ++ t = tag :: input ∧ readRecord tag input = .ok (op, t) := by
  cases op with
  | put k v =>
      have hk : k.length < 2 ^ 32 := h.1
      have hv : v.length < 2 ^ 32 := h.2
      refine ⟨1, _, rfl, ?_⟩
      unfold readRecord
      rw [if_pos rfl, List.append_eq, List.append_assoc, getLengthPrefixedSlice_put hk]
      simp only
      rw [getLengthPrefixedSlice_put hv]
  | delete k =>
      have hk : k.length < 2 ^ 32 := h.1
      refine ⟨0, _, rfl, ?_⟩
      unfold readRecord
      rw [if_neg (by decide), if_pos rfl, List.append_eq, getLengthPrefixedSlice_put hk]

/-- The records of a list of operations. -/
def encodeOps (ops : List WriteOp) : Bytes := ops.flatMap WriteOp.encode

/-- The operations with consecutive sequence numbers. -/
def numbered : ℕ → List WriteOp → List (ℕ × WriteOp)
  | _, [] => []
  | seq, op :: ops => (seq, op) :: numbered (seq + 1) ops

theorem iterateLoop_encodeOps {ops : List WriteOp} (h : ∀ op ∈ ops, op.Fits) {seq : ℕ}
    (hseq : seq + ops.length ≤ 2 ^ 64) :
    iterateLoop (encodeOps ops) seq ops.length = (Status.OK, numbered seq ops) := by
  induction ops generalizing seq with
  | nil => rw [encodeOps, List.flatMap_nil, iterateLoop]; rfl
  | cons op ops ih =>
      obtain ⟨tag, input, henc, hread⟩ := readRecord_encode (h op (by simp)) (encodeOps ops)
      rw [List.length_cons] at hseq ⊢
      rw [encodeOps, List.flatMap_cons]
      change iterateLoop (op.encode ++ encodeOps ops) seq (ops.length + 1) = _
      rw [henc, iterateLoop_cons hread]
      cases ops with
      | nil =>
          rw [encodeOps, List.flatMap_nil, List.length_nil, iterateLoop]
          rfl
      | cons op' ops =>
          rw [List.length_cons] at hseq
          rw [Nat.mod_eq_of_lt (by omega), ih (fun o ho => h o (List.mem_cons_of_mem _ ho))
            (by rw [List.length_cons]; omega)]
          rfl

/-! ### The batch of one operation -/

/-- The batch that `DBImpl::Put` and `DBImpl::Delete` make. -/
def ofOp : WriteOp → WriteBatch
  | .put key value => empty.put key value
  | .delete key => empty.delete key

/-- The bytes of such a batch: the lengths in it are the ones that fit their fields. -/
theorem ofOp_rep (op : WriteOp) (seq : ℕ) :
    ((ofOp op).set_sequence seq).rep = encodeFixed64 seq ++ (encodeFixed32 1 ++ op.encode) := by
  cases op <;> rfl

theorem sequence_ofOp (op : WriteOp) {seq : ℕ} (h : seq < 2 ^ 64) :
    ((ofOp op).set_sequence seq).sequence = seq := by
  rw [sequence, ofOp_rep, decodeFixed64_encodeFixed64 h]

theorem count_ofOp (op : WriteOp) (seq : ℕ) : ((ofOp op).set_sequence seq).count = 1 := by
  have h : ((ofOp op).set_sequence seq).storedCount = 1 := by
    rw [storedCount, ofOp_rep, List.drop_left' (encodeFixed64_length seq),
      decodeFixed32_encodeFixed32 (by decide)]
  rw [count, h]
  rfl

theorem iterate_ofOp_eq (op : WriteOp) {seq : ℕ} (h : seq < 2 ^ 64) :
    ((ofOp op).set_sequence seq).iterate = iterateLoop op.encode seq 1 := by
  have hdrop : ((ofOp op).set_sequence seq).rep.drop kHeader = op.encode := by
    rw [ofOp_rep, ← List.append_assoc, List.drop_left' (by simp [kHeader])]
  rw [iterate, hdrop, sequence_ofOp op h, count_ofOp]
  rfl

/-- **The handler receives the operation that was encoded.** -/
theorem iterate_ofOp {op : WriteOp} (hfits : op.Fits) {seq : ℕ} (h : seq < 2 ^ 64) :
    ((ofOp op).set_sequence seq).iterate = (Status.OK, [(seq, op)]) := by
  have henc := @iterateLoop_encodeOps [op] (by simpa using hfits) seq (by simpa using h)
  rw [iterate_ofOp_eq op h]
  simpa [encodeOps, numbered] using henc

/-! ### Batches of several operations -/

/-- A call on a batch that is being put together. -/
inductive BatchCall where
  | op (op : WriteOp)
  | setSequence (seq : ℕ)

/-- The batch after one more call. -/
def step (b : WriteBatch) : BatchCall → WriteBatch
  | .op (.put key value) => b.put key value
  | .op (.delete key) => b.delete key
  | .setSequence seq => b.set_sequence seq

/-- A fresh batch after a sequence of calls. -/
def build (calls : List BatchCall) : WriteBatch := calls.foldl step empty

/-- The operations among the calls. -/
def opsOf (calls : List BatchCall) : List WriteOp :=
  calls.filterMap fun
    | .op op => some op
    | .setSequence _ => none

/-- The sequence number set last. -/
def lastSequence (calls : List BatchCall) : ℕ :=
  calls.foldl (fun seq c => match c with
    | .op _ => seq
    | .setSequence seq => seq) 0

theorem encode_length_ge (op : WriteOp) :
    2 ≤ op.encode.length ∧ op.key.length < op.encode.length ∧ op.value.length < op.encode.length := by
  cases op with
  | put k v =>
      have h1 := putVarint32_length_pos k.length
      have h2 := putVarint32_length_pos v.length
      simp only [WriteOp.encode, WriteOp.key, WriteOp.value, putLengthPrefixedSlice, List.length_cons,
        List.length_append]
      omega
  | delete k =>
      have h1 := putVarint32_length_pos k.length
      simp only [WriteOp.encode, WriteOp.key, WriteOp.value, putLengthPrefixedSlice, List.length_cons,
        List.length_append, List.length_nil]
      omega

theorem encodeOps_length_ge (ops : List WriteOp) : ops.length * 2 ≤ (encodeOps ops).length := by
  induction ops with
  | nil => simp
  | cons op ops ih =>
      have h := (encode_length_ge op).1
      rw [encodeOps] at ih ⊢
      rw [List.flatMap_cons, List.length_append, List.length_cons]
      omega

/-- An operation of a batch below `2 ^ 32` bytes fits. -/
theorem fits_of_mem {ops : List WriteOp} (h : (encodeOps ops).length < 2 ^ 32) {op : WriteOp}
    (hop : op ∈ ops) : op.Fits := by
  obtain ⟨s, t, rfl⟩ := List.append_of_mem hop
  have h1 := encode_length_ge op
  simp only [encodeOps, List.flatMap_append, List.flatMap_cons, List.length_append] at h
  exact ⟨by omega, by omega⟩

theorem addRecord_rep {b : WriteBatch} {seq n : ℕ} {records record : Bytes} (hn : n + 1 < 2 ^ 32)
    (h : b.rep = encodeFixed64 seq ++ (encodeFixed32 n ++ records)) :
    (b.addRecord record).rep =
      encodeFixed64 seq ++ (encodeFixed32 (n + 1) ++ (records ++ record)) := by
  have hcount : b.storedCount = n := by
    rw [storedCount, h, List.drop_left' (encodeFixed64_length seq), decodeFixed32_encodeFixed32 (by omega)]
  have hrep : b.rep ++ record = encodeFixed64 seq ++ (encodeFixed32 n ++ (records ++ record)) := by
    rw [h]
    simp only [List.append_assoc]
  have hdrop : (b.rep ++ record).drop 12 = records ++ record := by
    rw [hrep, ← List.append_assoc, List.drop_left' (by simp)]
  simp only [addRecord, hcount, hdrop, List.append_assoc]
  rw [hrep, List.take_left' (encodeFixed64_length seq)]

theorem set_sequence_rep {b : WriteBatch} {seq seq' n : ℕ} {records : Bytes}
    (h : b.rep = encodeFixed64 seq ++ (encodeFixed32 n ++ records)) :
    (b.set_sequence seq').rep = encodeFixed64 seq' ++ (encodeFixed32 n ++ records) := by
  simp only [set_sequence, h]
  rw [List.drop_left' (encodeFixed64_length seq)]

/-- The bytes of a batch: the sequence number set last, the count, the records in order. -/
theorem build_rep {calls : List BatchCall} (h : (opsOf calls).length < 2 ^ 32) :
    (build calls).rep = encodeFixed64 (lastSequence calls) ++
      (encodeFixed32 (opsOf calls).length ++ encodeOps (opsOf calls)) := by
  induction calls using List.reverseRecOn with
  | nil => rfl
  | append_singleton calls c ih =>
      have hbuild : build (calls ++ [c]) = (build calls).step c := by
        rw [build, List.foldl_append]
        rfl
      cases c with
      | op op =>
          have hops : opsOf (calls ++ [.op op]) = opsOf calls ++ [op] := by
            rw [opsOf, List.filterMap_append]
            rfl
          have hseq : lastSequence (calls ++ [.op op]) = lastSequence calls := by
            rw [lastSequence, List.foldl_append]
            rfl
          have henc : encodeOps (opsOf calls ++ [op]) = encodeOps (opsOf calls) ++ op.encode := by
            rw [encodeOps, List.flatMap_append, List.flatMap_singleton, encodeOps]
          rw [hops, List.length_append, List.length_singleton] at h
          have hadd := @addRecord_rep _ _ _ _ op.encode h (ih (by omega))
          rw [hbuild, hops, hseq, henc, List.length_append, List.length_singleton, ← hadd]
          cases op <;> rfl
      | setSequence seq =>
          have hops : opsOf (calls ++ [.setSequence seq]) = opsOf calls := by
            rw [opsOf, List.filterMap_append]
            exact List.append_nil _
          have hseq : lastSequence (calls ++ [.setSequence seq]) = seq := by
            rw [lastSequence, List.foldl_append]
            rfl
          rw [hops] at h
          rw [hbuild, hops, hseq]
          exact set_sequence_rep (ih h)

theorem addRecord_length (b : WriteBatch) (record : Bytes) :
    (b.addRecord record).rep.length = b.rep.length + record.length := by
  have h := b.header_le
  simp only [addRecord, kHeader, List.length_append, List.length_take, List.length_drop,
    encodeFixed32_length] at *
  omega

theorem set_sequence_length (b : WriteBatch) (seq : ℕ) :
    (b.set_sequence seq).rep.length = b.rep.length := by
  have h := b.header_le
  simp only [set_sequence, kHeader, List.length_append, encodeFixed64_length, List.length_drop] at *
  omega

theorem build_rep_length (calls : List BatchCall) :
    (build calls).rep.length = kHeader + (encodeOps (opsOf calls)).length := by
  induction calls using List.reverseRecOn with
  | nil => rfl
  | append_singleton calls c ih =>
      have hbuild : build (calls ++ [c]) = (build calls).step c := by
        rw [build, List.foldl_append]
        rfl
      rw [hbuild, opsOf, List.filterMap_append, ← opsOf, encodeOps, List.flatMap_append, ← encodeOps,
        List.length_append, ← Nat.add_assoc, ← ih]
      cases c with
      | op op =>
          have hadd : ((build calls).step (.op op)) = (build calls).addRecord op.encode := by
            cases op <;> rfl
          rw [hadd, addRecord_length]
          simp
      | setSequence seq => exact set_sequence_length _ _

/-- **A batch is handed over as it was put together.**  Whatever operations it holds and wherever its
sequence number was set, a batch whose encoding stays below `2 ^ 32` bytes gives the handler exactly
its operations, in order, with consecutive sequence numbers. -/
theorem iterate_setContents (calls : List BatchCall) (hsize : (build calls).rep.length < 2 ^ 32)
    (hwrap : lastSequence calls + (opsOf calls).length ≤ 2 ^ 64) :
    ∃ b, setContents (build calls).rep = .ok b ∧
      b.iterate = (Status.OK, numbered (lastSequence calls) (opsOf calls)) ∧
      b.count = (opsOf calls).length := by
  have hlen := build_rep_length calls
  have hops := encodeOps_length_ge (opsOf calls)
  have hheader : kHeader = 12 := rfl
  have hrep := @build_rep calls (by omega)
  have hset : setContents (build calls).rep = .ok (build calls) := dif_neg (by omega)
  have hcount : (build calls).storedCount = (opsOf calls).length := by
    rw [storedCount, hrep, List.drop_left' (encodeFixed64_length _),
      decodeFixed32_encodeFixed32 (by omega)]
  have hint : (build calls).count = (opsOf calls).length := by
    rw [count, hcount, if_pos (by omega)]
  have hrecords : (build calls).rep.drop kHeader = encodeOps (opsOf calls) := by
    rw [hrep, ← List.append_assoc, List.drop_left' (by simp [kHeader])]
  have hremaining : ((build calls).count % 2 ^ 64).toNat = (opsOf calls).length := by
    rw [hint]
    omega
  refine ⟨build calls, hset, ?_, hint⟩
  rw [iterate, hrecords, hremaining]
  rcases Nat.eq_zero_or_pos (opsOf calls).length with hzero | hpos
  · rw [List.length_eq_zero_iff.mp hzero]
    rw [encodeOps, List.flatMap_nil, List.length_nil, iterateLoop]
    rfl
  · have hseq : (build calls).sequence = lastSequence calls := by
      rw [sequence, hrep, decodeFixed64_encodeFixed64 (by omega)]
    rw [hseq]
    exact iterateLoop_encodeOps (fun op hop => fits_of_mem (by omega) hop) hwrap

/-- A put, the sequence number, a deletion. -/
theorem iterate_setContents_three :
    ∃ b, setContents (build [.op (.put [1] [2]), .setSequence 5, .op (.delete [])]).rep = .ok b ∧
      b.iterate = (Status.OK, [(5, .put [1] [2]), (6, .delete [])]) ∧ b.count = 2 :=
  iterate_setContents [.op (.put [1] [2]), .setSequence 5, .op (.delete [])]
    (by
      rw [build_rep_length]
      simp [opsOf, encodeOps, WriteOp.encode, putLengthPrefixedSlice, kHeader, putVarint32,
        encodeVarint_of_lt])
    (by decide)

end WriteBatch
end MiniLevelDB
