import MiniLevelDB.Lib.Lockstep
import MiniLevelDB.Worlds

/-! # Writes and null pointers

`Write` reads `log_`, and `FlushMemTable` reads `log_file_`.  With both non-null no execution of a write, on
any device, comes upon a null pointer (`perform_avoids`), and the memtable changes only behind the record
in the log (`logsFirst`). -/

namespace MiniLevelDB

open Effect Posix

/-! ### Programs without faults -/

section

variable {f : Fault}

namespace LogWriter

theorem padTail_avoids (w : LogWriter) : w.padTail.Avoids f := by
  unfold padTail
  dsimp only
  split
  · exact Prog.avoids_op fun _ => trivial
  · trivial

theorem emitPhysicalRecord_avoids (w : LogWriter) (type : RecordType) (ptr : Bytes) :
    (w.emitPhysicalRecord type ptr).Avoids f := by
  apply Prog.avoids_op
  intro n
  split
  · trivial
  · split
    · apply Prog.avoids_op
      intro m
      split <;> trivial
    · trivial

theorem addFragments_avoids (w : LogWriter) (ptr : Bytes) (first : Bool) :
    (w.addFragments ptr first).Avoids f := by
  induction w, ptr, first using addFragments.induct with
  | case1 w ptr first ih =>
      rw [addFragments]
      apply (padTail_avoids w).bind
      intro padded
      split
      · apply (emitPhysicalRecord_avoids _ _ _).bind
        intro s
        split
        · split
          · next hlt => exact ih hlt
          · exact Prog.avoids_op fun _ => trivial
        · trivial
      · trivial

end LogWriter

namespace TableBuilder

theorem writeBlock_avoids (file : FILE) (contents : Bytes) : (writeBlock file contents).Avoids f := by
  apply Prog.avoids_op
  intro off
  split
  · trivial
  · apply Prog.avoids_op
    intro n
    split
    · trivial
    · apply Prog.avoids_op
      intro n
      split <;> trivial

theorem flushDataBlock_avoids (b : TableBuilder) : b.flushDataBlock.Avoids f := by
  unfold flushDataBlock
  split
  · trivial
  · apply (writeBlock_avoids _ _).bind
    rintro ⟨s, handle⟩
    dsimp only
    split <;> trivial

theorem finish_avoids (b : TableBuilder) : b.finish.Avoids f := by
  unfold finish
  split
  · trivial
  · apply (flushDataBlock_avoids b).bind
    rintro ⟨s, b'⟩
    dsimp only
    split
    · trivial
    · apply (writeBlock_avoids _ _).bind
      rintro ⟨s', handle⟩
      dsimp only
      split
      · trivial
      · apply Prog.avoids_op
        intro n
        split
        · trivial
        · exact Prog.avoids_op fun _ => trivial

theorem add_avoids (b : TableBuilder) (key value : Bytes) : (b.add key value).Avoids f := by
  unfold add
  split
  · trivial
  · dsimp only
    split
    · exact flushDataBlock_avoids _
    · trivial

theorem buildFrom_avoids (b : TableBuilder) (es : List Entry) : (b.buildFrom es).Avoids f := by
  induction es generalizing b with
  | nil => exact finish_avoids b
  | cons e es ih =>
      apply (add_avoids b e.1 e.2).bind
      rintro ⟨s, b'⟩
      dsimp only
      split
      · trivial
      · exact ih b'

end TableBuilder

theorem exists_of_mapM_error {α β ε : Type} {p : α → Except ε β} {xs : List α} {e : ε}
    (h : xs.mapM p = .error e) : ∃ x, p x = .error e := by
  induction xs with
  | nil => cases h
  | cons x xs ih =>
      rw [List.mapM_cons] at h
      cases hx : p x with
      | error e' =>
          rw [hx] at h
          obtain rfl := Except.error.inj h
          exact ⟨x, hx⟩
      | ok y =>
          cases hxs : xs.mapM p with
          | error e' =>
              rw [hx, hxs] at h
              obtain rfl := Except.error.inj h
              exact ih hxs
          | ok ys =>
              rw [hx, hxs] at h
              cases h

theorem readBlock_ne_nullDeref (file : RFile) (handle : BlockHandle) :
    readBlock file handle ≠ .error .nullDeref := by
  unfold readBlock
  dsimp only
  split_ifs
  · exact fun h => by cases h
  · exact fun h => by cases h
  · exact fun h => by cases h
  · split
    · exact fun h => by cases h
    · split_ifs <;> exact fun h => by cases h

theorem new_ne_nullDeref (contents : Bytes) : Block.new contents ≠ .error .nullDeref := by
  intro h
  unfold Block.new at h
  split_ifs at h with hshort
  dsimp only at h
  split_ifs at h with htoo
  cases hmap : (List.range (decodeFixed32 (contents.drop (contents.length - 4)))).mapM fun i =>
      readFixed32 contents (contents.length - 4 -
        decodeFixed32 (contents.drop (contents.length - 4)) * 4 % 2 ^ 32 + i * 4 % 2 ^ 32) with
  | ok restarts =>
      rw [hmap] at h
      cases h
  | error e =>
      rw [hmap] at h
      obtain rfl := Except.error.inj h
      obtain ⟨i, hi⟩ := exists_of_mapM_error hmap
      unfold readFixed32 at hi
      split_ifs at hi
      cases hi

/-- Opening a table reads no null pointer. -/
theorem load_ne_nullDeref (file : RFile) : Table.load file ≠ .error .nullDeref := by
  unfold Table.load
  dsimp only
  intro h
  split_ifs at h
  split at h
  · cases h
  · split at h
    · next hread =>
        obtain rfl := Except.error.inj h
        exact readBlock_ne_nullDeref _ _ hread
    · cases h
    · split at h
      · next hnew =>
          obtain rfl := Except.error.inj h
          exact new_ne_nullDeref _ hnew
      · cases h

theorem openTable_avoids (fname : Bytes) : (Table.openTable fname).Avoids .nullDeref := by
  apply Prog.avoids_op
  intro opened
  split
  · trivial
  · apply Prog.avoids_op
    intro file
    split
    · next e he =>
        rintro rfl
        exact load_ne_nullDeref file he
    · exact Prog.avoids_op fun _ => trivial
    · trivial

namespace DBImpl

theorem replaceLog_avoids (db : DBImpl) (file : FILE) (n : ℕ) : (db.replaceLog file n).Avoids f := by
  unfold replaceLog
  apply Prog.avoids_op
  intro _
  apply Prog.avoids_op
  intro closed
  dsimp only
  split
  · trivial
  · apply Prog.avoids_op
    intro removed
    split
    · trivial
    · apply Prog.avoids_op
      intro opened
      split <;> trivial

/-- A flush of a database with a log does not come upon a null pointer. -/
theorem flushMemTable_avoids {db : DBImpl} {file : FILE} (h : db.log_file = some file) :
    db.flushMemTable.Avoids .nullDeref := by
  unfold flushMemTable
  split
  · trivial
  · dsimp only
    apply Prog.avoids_op
    intro opened
    split
    · trivial
    · apply (TableBuilder.buildFrom_avoids _ _).bind
      rintro ⟨s, builder⟩
      have hclose : builder.close.Avoids Fault.nullDeref :=
        Prog.avoids_op fun _ => Prog.avoids_op fun _ => trivial
      apply hclose.bind
      intro _
      dsimp only
      split
      · trivial
      · apply Prog.avoids_op
        intro renamed
        split
        · trivial
        · apply (openTable_avoids _).bind
          intro r
          cases r with
          | error s => trivial
          | ok table =>
              dsimp only
              rw [h]
              exact replaceLog_avoids _ _ _

/-- **A write on a database with a log** does not come upon a null pointer. -/
theorem perform_avoids {db : DBImpl} {w : LogWriter} {file : FILE} (hlog : db.log = some w)
    (hfile : db.log_file = some file) (op : WriteOp) : (db.perform op).Avoids .nullDeref := by
  rw [perform_eq]
  unfold write
  rw [hlog]
  apply (LogWriter.addFragments_avoids w _ true).bind
  rintro ⟨s, w'⟩
  dsimp only
  split
  · trivial
  · split
    · trivial
    · split
      · exact flushMemTable_avoids hfile
      · trivial

/-- A write is logged before it changes the memtable, or returns an error and has not changed it. -/
def LogsFirst (db : DBImpl) (op : WriteOp) : Prop :=
  ∃ w k, db.log = some w ∧ db.perform op = (w.addRecord (db.batchOf op).rep >>= k) ∧
    ∀ s w', s.ok = false → k (s, w') = .ret (s, { db with log := some w' })

theorem logsFirst {db : DBImpl} {w : LogWriter} (hlog : db.log = some w) (op : WriteOp) :
    db.LogsFirst op := by
  rw [LogsFirst, perform_eq]
  unfold write
  rw [hlog]
  refine ⟨w, _, rfl, rfl, ?_⟩
  intro s w' hs
  dsimp only
  rw [if_pos (by simp [hs])]

end DBImpl

end

end MiniLevelDB
