import MiniLevelDB.LogWriter

/-! # The log reader

`db/log_reader.cc`.  The buffer is the block read last; its length is `limit_`, and the code never
looks behind it.  `file` is what `fread` has not delivered yet.

Every loop of the reader ends: a refill takes bytes from `file`, an accepted record and a skipped
block take bytes from the buffer.  `unread` counts both, so that `readRecord` and `readAll`, the
loop `while (reader.ReadRecord(&record))` of its callers, are total. -/

namespace MiniLevelDB

/-- `LogReader`; the buffer is one block at most. -/
structure LogReader where
  file : Bytes
  buffer : Bytes
  base : ℕ
  pos : ℕ
  eof : Bool
  valid_end : ℕ
  buffer_le : buffer.length ≤ kBlockSize

/-- `RecordType` of a byte from the disk. -/
def RecordType.ofByte (t : UInt8) : Option RecordType :=
  if t = 0 then some .kZeroType
  else if t = 1 then some .kFullType
  else if t = 2 then some .kFirstType
  else if t = 3 then some .kMiddleType
  else if t = 4 then some .kLastType
  else none

/-- `ReadResult`, with the type and the payload of an accepted record. -/
inductive ReadResult where
  | kOk (type : RecordType) (frag : Bytes)
  | kBad
  | kEof
deriving DecidableEq, Repr

/-- The length field of the header at `h`. -/
def headerLen (h : Bytes) : ℕ := (h.getD 4 0).toNat ||| (h.getD 5 0).toNat <<< 8

/-- The checks on the header at `h` and the `len` bytes behind it: type and checksum. -/
def checkRecord (h : Bytes) (len : ℕ) : Option (RecordType × Bytes) :=
  match RecordType.ofByte (h.getD 6 0) with
  | none => none
  | some .kZeroType => none
  | some type =>
      let payload := (h.drop kHeaderSize).take len
      let expect := maskCrc32c (extend (value [h.getD 6 0]) payload)
      if expect.toNat ≠ decodeFixed32 h then none else some (type, payload)

namespace LogReader

def limit (r : LogReader) : ℕ := r.buffer.length

/-- `Refill`: whether there are more bytes. -/
def refill (r : LogReader) : Bool × LogReader :=
  if r.eof then (false, r)
  else
    let buffer := r.file.take kBlockSize
    let r' : LogReader :=
      { r with
        base := r.base + r.limit
        buffer := buffer
        file := r.file.drop kBlockSize
        pos := 0
        eof := r.eof || buffer.length < kBlockSize
        buffer_le := List.length_take_le _ _ }
    (r'.limit > 0, r')

/-- `LogReader(file)`. -/
def new (file : Bytes) : LogReader :=
  (refill ⟨file, [], 0, 0, false, 0, Nat.zero_le _⟩).2

/-- `pos_ = n`. -/
def setPos (r : LogReader) (n : ℕ) : LogReader := { r with pos := n }

/-- The bytes not consumed yet. -/
def unread (r : LogReader) : ℕ := r.file.length + (r.limit - r.pos)

theorem refill_lt {r : LogReader} (h : r.refill.1 = true) :
    r.refill.2.file.length < r.file.length := by
  unfold refill at h ⊢
  split_ifs at h ⊢ with he
  simp only [limit, List.length_take, List.length_drop, gt_iff_lt, decide_eq_true_eq] at h ⊢
  have hb := kBlockSize_eq
  omega

theorem refill_unread (r : LogReader) : r.refill.2.unread ≤ r.unread := by
  unfold refill
  split
  · exact le_refl _
  · simp only [unread, limit, List.length_take, List.length_drop]
    omega

/-- `ReadPhysicalRecord`. -/
def readPhysicalRecord (r : LogReader) : ReadResult × LogReader :=
  if r.pos + kHeaderSize > r.limit then
    if r.eof then (.kEof, r)
    else
      if (r.setPos r.limit).refill.1 then readPhysicalRecord (r.setPos r.limit).refill.2
      else (.kEof, (r.setPos r.limit).refill.2)
  else
    let h := r.buffer.drop r.pos
    let len := headerLen h
    if r.pos + kHeaderSize + len > r.limit then
      if r.eof then (.kEof, r) else (.kBad, r)
    else
      match checkRecord h len with
      | none => (.kBad, r)
      | some (type, frag) =>
          let pos := r.pos + kHeaderSize + len
          (.kOk type frag, { r with pos := pos, valid_end := r.base + pos })
termination_by r.file.length
decreasing_by exact refill_lt (r := r.setPos r.limit) (by assumption)

/-- The bytes a call consumes: those of the accepted record, or, when the block is bad, the rest
of the block, which `readRecord` skips. -/
theorem readPhysicalRecord_lt (r : LogReader) :
    (∀ type frag, r.readPhysicalRecord.1 = .kOk type frag →
      r.readPhysicalRecord.2.unread < r.unread) ∧
    (r.readPhysicalRecord.1 = .kBad →
      (r.readPhysicalRecord.2.setPos kBlockSize).unread < r.unread) := by
  have hh := kHeaderSize_eq
  induction r using readPhysicalRecord.induct with
  | case1 r hpos heof =>
      rw [readPhysicalRecord, if_pos hpos, if_pos heof]
      simp
  | case2 r hpos heof hmore ih =>
      rw [readPhysicalRecord, if_pos hpos, if_neg heof, if_pos hmore]
      have hu : (r.setPos r.limit).refill.2.unread ≤ r.unread := by
        refine (refill_unread _).trans ?_
        simp [unread, setPos, limit]
      exact ⟨fun type frag h => (ih.1 type frag h).trans_le hu, fun h => (ih.2 h).trans_le hu⟩
  | case3 r hpos heof hmore =>
      rw [readPhysicalRecord, if_pos hpos, if_neg heof, if_neg hmore]
      simp
  | case4 r hpos h len hlen heof =>
      rw [readPhysicalRecord, if_neg hpos, if_pos hlen, if_pos heof]
      simp
  | case5 r hpos h len hlen heof =>
      rw [readPhysicalRecord, if_neg hpos, if_pos hlen, if_neg heof]
      refine ⟨by simp, fun _ => ?_⟩
      have := r.buffer_le
      simp only [unread, setPos, limit] at hpos ⊢
      omega
  | case6 r hpos h len hlen hc =>
      rw [readPhysicalRecord, if_neg hpos, if_neg hlen, hc]
      refine ⟨by simp, fun _ => ?_⟩
      have := r.buffer_le
      simp only [unread, setPos, limit] at hpos ⊢
      omega
  | case7 r hpos h len hlen type frag hc =>
      rw [readPhysicalRecord, if_neg hpos, if_neg hlen, hc]
      refine ⟨fun _ _ _ => ?_, by simp⟩
      simp only [unread, limit] at hpos hlen ⊢
      omega

/-- The loop of `ReadRecord`; `res` is `res_`. -/
def readRecordLoop (r : LogReader) (res : Bytes) (in_frag : Bool) : Option Bytes × LogReader :=
  match h : r.readPhysicalRecord with
  | (.kOk type frag, r') =>
      have : r'.unread < r.unread := by
        have := r.readPhysicalRecord_lt.1 type frag (by rw [h])
        rwa [h] at this
      if type = .kFullType then (some frag, r')
      else if type = .kFirstType then readRecordLoop r' frag true
      else if !in_frag then readRecordLoop r' res in_frag
      else if type = .kLastType then (some (res ++ frag), r')
      else readRecordLoop r' (res ++ frag) in_frag
  | (.kBad, r') =>
      have : (r'.setPos kBlockSize).unread < r.unread := by
        have := r.readPhysicalRecord_lt.2 (by rw [h])
        rwa [h] at this
      readRecordLoop (r'.setPos kBlockSize) [] false
  | (.kEof, r') => (none, r')
termination_by r.unread

/-- `ReadRecord`: the next record, or `none` for `false`. -/
def readRecord (r : LogReader) : Option Bytes × LogReader := r.readRecordLoop [] false

theorem readRecordLoop_eq (r : LogReader) (res : Bytes) (in_frag : Bool) :
    r.readRecordLoop res in_frag =
      match r.readPhysicalRecord with
      | (.kOk type frag, r') =>
          if type = .kFullType then (some frag, r')
          else if type = .kFirstType then readRecordLoop r' frag true
          else if !in_frag then readRecordLoop r' res in_frag
          else if type = .kLastType then (some (res ++ frag), r')
          else readRecordLoop r' (res ++ frag) in_frag
      | (.kBad, r') => readRecordLoop (r'.setPos kBlockSize) [] false
      | (.kEof, r') => (none, r') := by
  rw [readRecordLoop]
  split <;> simp [*]

/-- A returned record consumes bytes. -/
theorem readRecordLoop_lt (r : LogReader) (res : Bytes) (in_frag : Bool)
    (h : (r.readRecordLoop res in_frag).1.isSome = true) :
    (r.readRecordLoop res in_frag).2.unread < r.unread := by
  induction r, res, in_frag using readRecordLoop.induct with
  | case1 r res in_frag frag r' hr hlt =>
      rw [readRecordLoop_eq, hr]
      exact hlt
  | case2 r res in_frag frag r' hr hlt hfull ih =>
      rw [readRecordLoop_eq, hr] at h ⊢
      exact (ih h).trans hlt
  | case3 r res in_frag type frag r' hr hlt hfull hfirst hin ih =>
      rw [readRecordLoop_eq, hr] at h ⊢
      simp only [hfull, hfirst, hin, if_false, if_true] at h ⊢
      exact (ih h).trans hlt
  | case4 r res in_frag frag r' hin hr hlt hfull hfirst =>
      rw [readRecordLoop_eq, hr]
      simp only [hfull, hfirst, hin, if_false, if_true]
      exact hlt
  | case5 r res in_frag type frag r' hr hlt hfull hfirst hin hlast ih =>
      rw [readRecordLoop_eq, hr] at h ⊢
      simp only [hfull, hfirst, hin, hlast, if_false] at h ⊢
      exact (ih h).trans hlt
  | case6 r res in_frag r' hr hlt ih =>
      rw [readRecordLoop_eq, hr] at h ⊢
      exact (ih h).trans hlt
  | case7 r res in_frag r' hr =>
      rw [readRecordLoop_eq, hr] at h
      cases h

/-- Reading until `ReadRecord` returns `false`: the records and the reader left behind. -/
def readAll (r : LogReader) : List Bytes × LogReader :=
  match h : r.readRecord with
  | (none, r') => ([], r')
  | (some record, r') =>
      have : r'.unread < r.unread := by
        have := readRecordLoop_lt r [] false (by rw [← readRecord, h]; rfl)
        rwa [← readRecord, h] at this
      (record :: (readAll r').1, (readAll r').2)
termination_by r.unread

theorem readAll_of_none {r r' : LogReader} (h : r.readRecord = (none, r')) :
    r.readAll = ([], r') := by
  rw [readAll]
  split <;> simp_all

theorem readAll_of_some {r r' : LogReader} {record : Bytes} (h : r.readRecord = (some record, r')) :
    r.readAll = (record :: r'.readAll.1, r'.readAll.2) := by
  rw [readAll]
  split <;> simp_all

end LogReader
end MiniLevelDB
