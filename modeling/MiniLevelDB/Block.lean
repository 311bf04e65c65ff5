import MiniLevelDB.BlockBuilder

/-! # Reading a block

`table/block.cc`.  A block is read where it lies, so its contents are kept, with the size of the
entry area in front of the restart array; the iterator's value is a range of the contents.  Reads
that leave the contents, and a prefix longer than what is left of the input, are faults.

Integers of the iterator are 32 bits wide.  On contents no builder has made its loops need not
end, so `Seek` runs in `Exec`, which has no result then. -/

namespace MiniLevelDB

/-- Computations that may fault or not end. -/
abbrev Exec (α : Type) := ExceptT Fault Option α

/-- A computation that ends. -/
def Exec.ofExcept {α : Type} (r : Except Fault α) : Exec α := ExceptT.mk (some r)

/-- `std::string::resize`. -/
def resizeBytes (s : Bytes) (n : ℕ) : Bytes := s.take n ++ List.replicate (n - s.length) 0

/-- `DecodeFixed32` at an offset of `contents`. -/
def readFixed32 (contents : Bytes) (off : ℕ) : Except Fault ℕ :=
  if off + 4 ≤ contents.length then .ok (decodeFixed32 (contents.drop off))
  else .error .outOfBounds

/-- `Block`. -/
structure Block where
  contents : Bytes
  data_size : ℕ
  restarts : List ℕ

namespace Block

/-- `Block(contents)`. -/
def new (contents : Bytes) : Except Fault Block :=
  if contents.length < 4 then .ok ⟨contents, 0, []⟩
  else
    let count := decodeFixed32 (contents.drop (contents.length - 4))
    let restart_array_size := count * 4 % 2 ^ 32
    if contents.length < 4 + restart_array_size then .ok ⟨contents, 0, []⟩
    else do
      let restart_ptr := contents.length - 4 - restart_array_size
      let restarts ← (List.range count).mapM fun i =>
        readFixed32 contents (restart_ptr + i * 4 % 2 ^ 32)
      return ⟨contents, restart_ptr, restarts⟩

/-- `Block::Iterator`. -/
structure Iterator where
  current : ℕ
  restart_index : ℕ
  key : Bytes
  value_offset : ℕ
  value_size : ℕ
  valid : Bool

/-- `NewIterator`. -/
def newIterator : Iterator := ⟨0, 0, [], 0, 0, false⟩

/-- The three lengths of an entry and the input behind them. -/
def decodeLengths (input : Bytes) : Option (ℕ × ℕ × ℕ × Bytes) :=
  match getVarint32 input with
  | none => none
  | some (shared, input) =>
      match getVarint32 input with
      | none => none
      | some (unshared, input) =>
          match getVarint32 input with
          | none => none
          | some (value_len, input) => some (shared, unshared, value_len, input)

variable (b : Block)

/-- `restarts_[i]`. -/
def restart (i : ℕ) : Except Fault ℕ :=
  match b.restarts[i]? with
  | some o => .ok o
  | none => .error .outOfBounds

/-- `DecodeEntry`. -/
def decodeEntry (it : Iterator) : Except Fault Iterator :=
  if it.current ≥ b.data_size then .ok { it with valid := false }
  else
    match decodeLengths ((b.contents.take b.data_size).drop it.current) with
    | none => .ok { it with valid := false }
    | some (shared, unshared, value_len, input) =>
        if unshared > input.length then .error .outOfBounds
        else
          let value_offset := b.data_size - (input.length - unshared)
          let entry_size := value_offset - it.current + value_len
          .ok
            { current := (it.current + entry_size % 2 ^ 32) % 2 ^ 32
              restart_index := it.restart_index
              key := resizeBytes it.key shared ++ input.take unshared
              value_offset := value_offset
              value_size := value_len
              valid := true }

/-- `value()`. -/
def value (it : Iterator) : Except Fault Bytes :=
  if it.value_offset + it.value_size ≤ b.contents.length then
    .ok ((b.contents.drop it.value_offset).take it.value_size)
  else .error .outOfBounds

/-- `SeekToFirst`. -/
def seekToFirst (it : Iterator) : Except Fault Iterator :=
  match b.restarts with
  | [] => .ok { it with valid := false }
  | o :: _ => b.decodeEntry { it with restart_index := 0, current := o }

/-- The loop of `Next` that keeps `restart_index_` in step. -/
def advanceRestart (it : Iterator) : Iterator :=
  if h : it.restart_index + 1 < b.restarts.length then
    if it.current ≥ b.restarts[it.restart_index + 1] then
      advanceRestart { it with restart_index := it.restart_index + 1 }
    else it
  else it
termination_by b.restarts.length - it.restart_index

/-- `Next`. -/
def next (it : Iterator) : Except Fault Iterator :=
  if !it.valid then .ok it
  else do
    let it ← b.decodeEntry it
    return b.advanceRestart it

/-- The bisection of `Seek`. -/
def seekRestart (b : Block) (target : Bytes) (it : Iterator) (left right : ℕ) : Exec (Iterator × ℕ) :=
  if left < right then do
    let mid := (left + right + 1) % 2 ^ 32 / 2
    let o ← Exec.ofExcept (b.restart mid)
    let it ← Exec.ofExcept (b.decodeEntry { it with current := o })
    if Slice.compare it.key target < 0 then b |>.seekRestart target it mid right
    else b |>.seekRestart target it left ((mid + 2 ^ 32 - 1) % 2 ^ 32)
  else return (it, left)
partial_fixpoint

/-- The scan of `Seek`. -/
def seekScan (b : Block) (target : Bytes) (it : Iterator) : Exec Iterator :=
  if it.valid ∧ Slice.compare it.key target < 0 then do
    let it ← Exec.ofExcept (b.next it)
    b |>.seekScan target it
  else return it
partial_fixpoint

/-- `Seek`. -/
def seek (target : Bytes) (it : Iterator) : Exec Iterator :=
  if b.restarts = [] then return { it with valid := false }
  else do
    let (it, left) ← b.seekRestart target it 0 (b.restarts.length - 1)
    let o ← Exec.ofExcept (b.restart left)
    let it ← Exec.ofExcept (b.decodeEntry { it with restart_index := left, current := o })
    b.seekScan target it

end Block
end MiniLevelDB
