import MiniLevelDB.Recovery

/-! # The outcome of a write

`Write` logs a batch before it decodes it into the memtable.  A batch whose lengths fit their fields is
decoded as it was encoded, and the call has its full effect (`perform_outcome`); one with a longer key is
not, and leaves the log, the memtable and `last_seq_` apart (`delete_half_done`). -/

namespace MiniLevelDB

open Effect
open LogWriter (recordBytes)

/-! ### What a write may do -/

/-- What a replay of the log gives: its status, and the calls it applies. -/
def DBImpl.replayed (db : DBImpl) (fs : FileSystem) : Status × List (ℕ × WriteOp) :=
  (DBImpl.replayStatus (fs.get (logFileName db.dbname db.log_number)),
    DBImpl.callsOf (fs.get (logFileName db.dbname db.log_number)))

theorem opens_rightUnique : Relator.RightUnique Opens := by
  intro b t t' h h'
  rw [Opens, h] at h'
  exact Except.ok.inj (Except.ok.inj h')

section

variable {dbname : Bytes} {fs fs' : FileSystem} {l l' : List FileEntry} {L L' : Layers} {db db' : DBImpl}
  {op : WriteOp}

theorem Holds.replayed (h : Holds dbname ⟨fs, some db⟩ l L) : db.replayed fs = (Status.OK, L.current) := by
  obtain ⟨b, hst, hlog⟩ := (h.serving db rfl).log
  have hget : fs.get (logFileName db.dbname db.log_number) = b := by
    rw [hst.name_eq, logFileName_eq]
    exact hst.dir.get_eq hst.log_mem
  obtain ⟨hstatus, hcalls, -⟩ := hlog.holds.replay fun c hc => h.wellFormed.writable hc
  rw [DBImpl.replayed, hget, hstatus, hcalls]

/-- Databases that serve the same tables have the same. -/
theorem Holds.tables_eq (h : Holds dbname ⟨fs, some db⟩ l L) (h' : Holds dbname ⟨fs', some db'⟩ l' L')
    (htables : L'.tables = L.tables) : db'.tables = db.tables := by
  have hopens := h'.opens
  rw [htables] at hopens
  exact List.right_unique_forall₂' opens_rightUnique hopens h.opens

end

end MiniLevelDB
