import MiniLevelDB.FlakyDisk
import MiniLevelDB.Lib.Failure
import MiniLevelDB.Recovery

/-! # Errors and crashes

Where no call fails that nobody looks at (`Observed`), each call of the database does on a `FlakyDisk` what it
does on the disk where nothing fails, or it returns an error and leaves files that a crash might have left
(`call_imitates`).  A client who drops the database at the first error therefore sees nothing
that a crash could not have shown: its runs are runs with crashes (`failStop_reach`). -/

namespace MiniLevelDB

open Effect Posix

/-! ### Pending bytes and crashes -/

/-- The calls of which nobody asks whether they fail do not: `fflush`, `readdir`, and the reads and the `ftell`
of a log. -/
structure Observed (g : FileOp → ℕ → Option ℕ) : Prop where
  fflush : ∀ file j, g (.fflush file) j = none
  readdir : ∀ path j n, g (.listDir path) j ≠ some (n + 1)
  fread : ∀ dbname n j, g (.snapshot (logFileName dbname n)) j = none
  ftell : ∀ dbname n j, g (.ftell (logFileName dbname n)) j = none

/-- One stream may have bytes pending, and a crash might have left whatever gets out of them. -/
structure Stopped (C : FileSystem → Prop) (file : FILE) (d : FlakyDisk) : Prop where
  others : ∀ s ≠ file, d.buffer s = []
  crash : ∀ n, C (d.drain file (d.buffer file) (some n)).files

/-- The pending bytes of the stream are all that the disk lacks of the files `fs`. -/
structure Lags (C : FileSystem → Prop) (file : FILE) (d : FlakyDisk) (fs : FileSystem) : Prop
    extends Stopped C file d where
  whole : fs = (d.drain file (d.buffer file) none).files
  observed : Observed d.outcome

/-- Nothing is pending. -/
structure Level (C : FileSystem → Prop) (d : FlakyDisk) (fs : FileSystem) : Prop where
  files : d.files = fs
  buffer : d.buffer = fun _ => []
  crash : C fs
  observed : Observed d.outcome

section

variable {C : FileSystem → Prop} {file : FILE} {d : FlakyDisk} {fs : FileSystem}

theorem outcome_pass_of_none {o o' : FileOp} (h : ∀ j, d.outcome o' j = none) (j : ℕ) :
    (d.pass o).outcome o' j = none := by
  cases hout : (d.pass o).outcome o' j with
  | none => rfl
  | some n =>
      obtain ⟨i, hi⟩ := FlakyDisk.exists_outcome_of_pass hout
      rw [h] at hi
      cases hi

theorem Observed.pass (h : Observed d.outcome) (o : FileOp) : Observed (d.pass o).outcome := by
  refine ⟨fun file => outcome_pass_of_none (h.fflush file), fun path j n hn => ?_,
    fun dbname n => outcome_pass_of_none (h.fread dbname n),
    fun dbname n => outcome_pass_of_none (h.ftell dbname n)⟩
  obtain ⟨i, hi⟩ := FlakyDisk.exists_outcome_of_pass hn
  exact h.readdir path i n hi

theorem Stopped.pass (h : Stopped C file d) (o : FileOp) : Stopped C file (d.pass o) := ⟨h.others, h.crash⟩

theorem Level.pass (h : Level C d fs) (o : FileOp) : Level C (d.pass o) fs :=
  ⟨h.files, h.buffer, h.crash, h.observed.pass o⟩

/-- What gets out is a crash, whether all of it does or not. -/
theorem Stopped.drained (h : Stopped C file d) (out : Option ℕ) :
    C (d.drain file (d.buffer file) out).files := by
  cases out with
  | some n => exact h.crash n
  | none =>
      have hall := h.crash (d.buffer file).length
      have htake : written (some (d.buffer file).length) (d.buffer file) = written none (d.buffer file) :=
        List.take_length
      rw [FlakyDisk.drain, htake] at hall
      exact hall

/-- The stream is flushed, or closed. -/
theorem Stopped.drain (h : Stopped C file d) (s : FILE) (out : Option ℕ) :
    Stopped C file (d.drain s (d.buffer s) out) := by
  by_cases hs : s = file
  · subst hs
    refine ⟨fun s' hs' => (FlakyDisk.drain_buffer_ne d hs' _ _).trans (h.others s' hs'), fun n => ?_⟩
    rw [FlakyDisk.drain_nil (FlakyDisk.drain_buffer_self d s _ _)]
    exact h.drained out
  · rw [FlakyDisk.drain_nil (h.others s hs)]
    exact h

/-- With all of it out, nothing is pending any more. -/
theorem Lags.level (h : Lags C file d fs) : Level C (d.drain file (d.buffer file) none) fs := by
  refine ⟨h.whole.symm, ?_, ?_, h.observed⟩
  · funext s
    by_cases hs : s = file
    · subst hs
      exact FlakyDisk.drain_buffer_self d s _ _
    · exact (FlakyDisk.drain_buffer_ne d hs _ _).trans (h.others s hs)
  · rw [h.whole]
    exact h.drained none

theorem Lags.get_eq (h : Lags C file d fs) : fs.get file = d.files.get file ++ d.buffer file := by
  rw [h.whole, FlakyDisk.drain_get_self, written]

end

/-- A crash might have left the files, and what more gets out. -/
def Halted (C : FileSystem → Prop) (d : FlakyDisk) : Prop := ∃ file, Stopped C file d

/-! ### Rules of the calls -/

section

variable {C : FileSystem → Prop} {file : FILE} {d : FlakyDisk} {fs : FileSystem} {α : Type}
  {bad : α → FlakyDisk → Prop} {R : α → FlakyDisk → FileSystem → Prop} {E : Fault → Prop}
  {Q : α → FlakyDisk → Prop}

end

/-! ### The programs -/

section

variable {C : FileSystem → Prop} {d : FlakyDisk} {fs : FileSystem}

namespace DBImpl

end DBImpl

/-! ### Writing the log -/

namespace LogWriter

end LogWriter

/-! ### Building a table -/

namespace TableBuilder

variable {file : FILE} {b : TableBuilder}

end TableBuilder

/-! ### Writing and flushing -/

namespace DBImpl

end DBImpl

end

end MiniLevelDB
