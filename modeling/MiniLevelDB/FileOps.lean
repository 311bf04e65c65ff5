import Mathlib.Data.List.AList
import MiniLevelDB.Lib.Program
import MiniLevelDB.Status

/-! # File operations and the disk

The code reaches the disk through `FileOp`, and every routine that does is a `FileProg`.  A
stream is named by the path it was opened at: the code never renames or removes a path while it
still uses a stream of it.  Reads do not change the disk, so a stream opened for reading is
represented by the file behind it, `RFile` (`snapshot`).

`disk room` is the disk on which every operation succeeds.  `room n` says that a file of `n`
bytes fits; an append that would not fit has no outcome.  A crash inside `fwrite` leaves any prefix
of the bytes being appended; the other operations are atomic. -/

namespace MiniLevelDB

open Effect

/-- `FILE *`. -/
abbrev FILE := Bytes

/-- The modes the code opens files in: `"wb"`, `"a+b"`, `"r+b"`, `"rb"`. -/
inductive Mode where
  | wb
  | ab
  | rpb
  | rb
deriving DecidableEq, Repr

/-- A file open for reading: its size and what `fseek` to an offset and `fread` of a number of
bytes deliver (fewer bytes at the end of the file, or on an error). -/
structure RFile where
  size : ℕ
  pread : ℕ → ℕ → Bytes

/-- An undamaged file. -/
def RFile.ofBytes (b : Bytes) : RFile := ⟨b.length, fun off n => (b.drop off).take n⟩

/-- A file of which only the first bytes can be read. -/
def RFile.upTo (readable : ℕ) (b : Bytes) : RFile := ⟨b.length, fun off n => ((b.take readable).drop off).take n⟩

theorem RFile.upTo_of_le {readable : ℕ} {b : Bytes} (h : b.length ≤ readable) :
    RFile.upTo readable b = RFile.ofBytes b := by
  rw [RFile.upTo, List.take_of_length_le h, RFile.ofBytes]

inductive FileOp where
  | mkdir (path : Bytes)
  | listDir (path : Bytes)
  | fopen (path : Bytes) (mode : Mode)
  | snapshot (file : FILE)
  | fwrite (file : FILE) (data : Bytes)
  | fflush (file : FILE)
  | fclose (file : FILE)
  | ftell (file : FILE)
  | ftruncate (file : FILE) (length : ℕ)
  | rename (old new : Bytes)
  | remove (path : Bytes)
deriving DecidableEq, Repr

/-- Results: `listDir` is `none` when `opendir` fails, `fopen` is whether the stream is non-null,
`fwrite` the count, `ftell` is `none` for a negative position, the others whether they returned
zero. -/
def FileOp.Res : FileOp → Type
  | .mkdir _ => Unit
  | .listDir _ => Option (List Bytes)
  | .fopen _ _ => Bool
  | .snapshot _ => RFile
  | .fwrite _ _ => ℕ
  | .fflush _ => Unit
  | .fclose _ => Bool
  | .ftell _ => Option ℕ
  | .ftruncate _ _ => Bool
  | .rename _ _ => Bool
  | .remove _ => Bool

abbrev FileProg (α : Type) := Prog FileOp FileOp.Res Fault α

namespace Posix

abbrev mkdir (path : Bytes) : FileProg Unit := Prog.op (FileOp.mkdir path)
abbrev listDir (path : Bytes) : FileProg (Option (List Bytes)) := Prog.op (FileOp.listDir path)
abbrev fopen (path : Bytes) (mode : Mode) : FileProg Bool := Prog.op (FileOp.fopen path mode)
abbrev snapshot (file : FILE) : FileProg RFile := Prog.op (FileOp.snapshot file)
abbrev fwrite (file : FILE) (data : Bytes) : FileProg ℕ := Prog.op (FileOp.fwrite file data)
abbrev fflush (file : FILE) : FileProg Unit := Prog.op (FileOp.fflush file)
abbrev fclose (file : FILE) : FileProg Bool := Prog.op (FileOp.fclose file)
abbrev ftell (file : FILE) : FileProg (Option ℕ) := Prog.op (FileOp.ftell file)
abbrev ftruncate (file : FILE) (length : ℕ) : FileProg Bool := Prog.op (FileOp.ftruncate file length)
abbrev rename (old new : Bytes) : FileProg Bool := Prog.op (FileOp.rename old new)
abbrev remove (path : Bytes) : FileProg Bool := Prog.op (FileOp.remove path)

end Posix

/-- The files of the disk by their paths. -/
abbrev FileSystem := AList (fun _ : Bytes => Bytes)

namespace FileSystem

/-- The contents of a file (no bytes when there is none). -/
def get (fs : FileSystem) (path : Bytes) : Bytes := (fs.lookup path).getD []

/-- `readdir` over `path`: the last components of the files directly below it. -/
def entriesOf (fs : FileSystem) (path : Bytes) : List Bytes :=
  fs.keys.filterMap fun p =>
    if (path ++ ascii "/") <+: p ∧ (p.drop (path.length + 1)).all (· ≠ 47)
    then some (p.drop (path.length + 1)) else none

/-- The files after `data` was written behind `path`. -/
def append (fs : FileSystem) (path data : Bytes) : FileSystem :=
  fs.insert path (fs.get path ++ data)

/-- Cut a file to `n` bytes, or extend it with zeros. -/
def resize (b : Bytes) (n : ℕ) : Bytes := b.take n ++ List.replicate (n - b.length) 0

/-- An operation on a disk where nothing fails. -/
def ok (room : ℕ → Bool) (fs : FileSystem) : (o : FileOp) → Option (o.Res × FileSystem)
  | .mkdir _ => some ((), fs)
  | .listDir path => some (some (fs.entriesOf path), fs)
  | .fopen path .wb => some (true, fs.insert path [])
  | .fopen path .ab => some (true, if path ∈ fs then fs else fs.insert path [])
  | .fopen path .rpb => some (decide (path ∈ fs), fs)
  | .fopen path .rb => some (decide (path ∈ fs), fs)
  | .snapshot file => some (RFile.ofBytes (fs.get file), fs)
  | .fwrite file data =>
      if room ((fs.get file).length + data.length)
      then some (data.length, fs.append file data) else none
  | .fflush _ => some ((), fs)
  | .fclose _ => some (true, fs)
  | .ftell file => some (some (fs.get file).length, fs)
  | .ftruncate file n => some (true, fs.insert file (resize (fs.get file) n))
  | .rename old new =>
      if old ∈ fs then some (true, (fs.erase old).insert new (fs.get old)) else some (false, fs)
  | .remove path => if path ∈ fs then some (true, fs.erase path) else some (false, fs)

/-- What a crash inside an operation may leave. -/
def torn (fs : FileSystem) : FileOp → FileSystem → Prop
  | .fwrite file data, fs' => ∃ n, fs' = fs.append file (data.take n)
  | _, _ => False

end FileSystem

/-- The disk on which every operation succeeds. -/
def disk (room : ℕ → Bool) : Device FileOp FileOp.Res FileSystem where
  ok := FileSystem.ok room
  torn := FileSystem.torn

/-- A disk without a limit on file sizes. -/
def unbounded : ℕ → Bool := fun _ => true

/-- Files are addressed with a signed 64-bit offset. -/
def offsetLimit : ℕ → Bool := fun n => n < 2 ^ 63

namespace FileSystem

@[simp] theorem get_insert (fs : FileSystem) (p b : Bytes) : get (fs.insert p b) p = b := by
  simp [get]

theorem get_insert_ne (fs : FileSystem) {p q : Bytes} (b : Bytes) (h : q ≠ p) :
    get (fs.insert p b) q = get fs q := by
  simp [get, AList.lookup_insert_ne h]

theorem get_erase_ne (fs : FileSystem) {p q : Bytes} (h : q ≠ p) :
    get (fs.erase p) q = get fs q := by
  simp [get, AList.lookup_erase_ne h]

@[simp] theorem get_append (fs : FileSystem) (p data : Bytes) :
    get (fs.append p data) p = get fs p ++ data := get_insert fs p _

@[simp] theorem append_append (fs : FileSystem) (p a b : Bytes) :
    (fs.append p a).append p b = fs.append p (a ++ b) := by
  simp only [append, get_insert, AList.insert_insert, List.append_assoc]

@[simp] theorem append_insert (fs : FileSystem) (p a b : Bytes) :
    append (fs.insert p a) p b = fs.insert p (a ++ b) := by
  simp only [append, get_insert, AList.insert_insert]

@[simp] theorem mem_append (fs : FileSystem) (p q data : Bytes) :
    q ∈ fs.append p data ↔ q = p ∨ q ∈ fs := by
  simp [append]

end FileSystem

/-! ### Proof rules on the disk -/

section Rules

variable {room : ℕ → Bool} {α : Type} {Q : α → FileSystem → Prop} {C : FileSystem → Prop}
  {fs : FileSystem}

/-- The rule of an append: a crash inside it leaves a prefix of the bytes, and it completes only if
there is room. -/
theorem fwrite_room_wp {file data : Bytes} {k : ℕ → FileProg α} (hC : C fs)
    (htorn : ∀ x, x <+: data → C (fs.append file x))
    (hk : room ((fs.get file).length + data.length) = true →
      (k data.length).wp (disk room) Q C (fs.append file data)) :
    (Posix.fwrite file data >>= k).wp (disk room) Q C fs := by
  refine Prog.wp_call hC ?_ ?_
  · rintro _ ⟨n, rfl⟩
    exact htorn _ (List.take_prefix n data)
  · intro r fs' h
    simp only [disk, FileSystem.ok] at h
    split at h
    · rename_i hroom
      obtain ⟨rfl, rfl⟩ := Prod.mk.inj (Option.some.inj h)
      exact hk hroom
    · cases h

/-- The rule of an append that does not ask about room. -/
theorem fwrite_wp {file data : Bytes} {k : ℕ → FileProg α} (hC : C fs)
    (htorn : ∀ x, x <+: data → C (fs.append file x))
    (hk : (k data.length).wp (disk room) Q C (fs.append file data)) :
    (Posix.fwrite file data >>= k).wp (disk room) Q C fs := fwrite_room_wp hC htorn fun _ => hk

/-- The rule of an operation that a crash cannot tear. -/
theorem op_wp {o : FileOp} {k : o.Res → FileProg α} {r : o.Res} {fs' : FileSystem} (hC : C fs)
    (hok : FileSystem.ok room fs o = some (r, fs')) (hatomic : ∀ w, ¬ FileSystem.torn fs o w)
    (hk : (k r).wp (disk room) Q C fs') : (Prog.op o >>= k).wp (disk room) Q C fs := by
  refine Prog.wp_call hC (fun w h => absurd h (hatomic w)) ?_
  intro r' w h
  obtain ⟨rfl, rfl⟩ := Prod.mk.inj (Option.some.inj (hok.symm.trans h))
  exact hk

theorem fflush_wp {file : Bytes} {k : Unit → FileProg α} (hk : (k ()).wp (disk room) Q C fs) :
    (Posix.fflush file >>= k).wp (disk room) Q C fs := by
  exact op_wp (Prog.wp_crash_now hk) rfl (fun _ h => h) hk

variable {G : FileSystem → FileOp → Prop} {E : Prop}

/-- The guarded rule of an operation that a crash cannot tear. -/
theorem op_wpg {o : FileOp} {k : o.Res → FileProg α} {r : o.Res} {fs' : FileSystem} (hC : C fs)
    (hG : G fs o) (hok : FileSystem.ok room fs o = some (r, fs'))
    (hatomic : ∀ w, ¬ FileSystem.torn fs o w) (hk : (k r).wpg (disk room) G E Q C fs') :
    (Prog.op o >>= k).wpg (disk room) G E Q C fs := by
  refine ⟨hC, hG, fun w h => absurd h (hatomic w), ?_⟩
  intro r' w h
  obtain ⟨rfl, rfl⟩ := Prod.mk.inj (Option.some.inj (hok.symm.trans h))
  exact hk

end Rules

/-! ### Calls that lose nothing -/

/-- The call neither empties nor replaces a file that is there; a file that is there may be opened for
appending only if `reopen`. -/
def Safe (reopen : Bool) (fs : FileSystem) : FileOp → Prop
  | .fopen path .wb => path ∉ fs
  | .fopen path .ab => reopen = true ∨ path ∉ fs
  | .rename _ new => new ∉ fs
  | _ => True

/-- The call is safe on every disk. -/
def Harmless (o : FileOp) : Prop := ∀ reopen fs, Safe reopen fs o

section Harmless

variable {α β : Type} {p : FileProg α}

theorem harmless_fwrite (file data : Bytes) : Harmless (.fwrite file data) := fun _ _ => trivial
theorem harmless_fflush (file : Bytes) : Harmless (.fflush file) := fun _ _ => trivial
theorem harmless_ftell (file : Bytes) : Harmless (.ftell file) := fun _ _ => trivial
theorem harmless_snapshot (file : Bytes) : Harmless (.snapshot file) := fun _ _ => trivial
theorem harmless_ftruncate (file : Bytes) (n : ℕ) : Harmless (.ftruncate file n) := fun _ _ => trivial

theorem only_op {o : FileOp} (h : Harmless o) {k : o.Res → FileProg β} (hk : ∀ r, (k r).Only Harmless) :
    (Prog.op o >>= k).Only Harmless := ⟨h, hk⟩

/-- A program of harmless calls only. -/
theorem wpg_of_harmless {room : ℕ → Bool} {Q : α → FileSystem → Prop} {C : FileSystem → Prop}
    {fs : FileSystem} {reopen : Bool} {E : Prop} (h : p.wp (disk room) Q C fs) (hp : p.Only Harmless) :
    p.wpg (disk room) (Safe reopen) E Q C fs :=
  Prog.wpg_of_wp h hp fun fs _ ho => ho reopen fs

end Harmless

theorem unbounded_ok_isSome (fs : FileSystem) (o : FileOp) :
    (FileSystem.ok unbounded fs o).isSome = true := by
  cases o with
  | fopen path mode => cases mode <;> rfl
  | rename old new =>
      simp only [FileSystem.ok]
      split <;> rfl
  | remove path =>
      simp only [FileSystem.ok]
      split <;> rfl
  | _ => rfl

/-- What a completed `fwrite` has done. -/
theorem fwrite_done {room : ℕ → Bool} {file data : Bytes} {fs fs' : FileSystem} {n : ℕ}
    (h : (Posix.fwrite file data).run (disk room) fs = .done n fs') :
    n = data.length ∧ fs' = fs.append file data ∧ room ((fs.get file).length + data.length) = true := by
  by_cases hroom : room ((fs.get file).length + data.length) = true
  · have hok : (disk room).ok fs (.fwrite file data) = some (data.length, fs.append file data) :=
      if_pos hroom
    have hrun := (Prog.run_call _ hok).symm.trans h
    cases hrun
    exact ⟨rfl, rfl, hroom⟩
  · have hok : (disk room).ok fs (.fwrite file data) = none := if_neg hroom
    have hrun := (Prog.run_call_none _ hok).symm.trans h
    cases hrun

/-- On an unlimited disk the postcondition of a program is reached. -/
theorem run_unbounded_of_wp {α : Type} {p : FileProg α} {Q : α → FileSystem → Prop}
    {C : FileSystem → Prop} {fs : FileSystem} (h : p.wp (disk unbounded) Q C fs) :
    ∃ a fs', p.run (disk unbounded) fs = .done a fs' ∧ Q a fs' :=
  Prog.run_of_wp unbounded_ok_isSome h

end MiniLevelDB
