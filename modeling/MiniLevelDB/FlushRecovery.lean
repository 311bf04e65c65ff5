import MiniLevelDB.Usable

/-! # Opening after a flush that has failed

Whichever calls of a flush fail, the directory is opened again and its layers hold the last logged write for
each key, as long as the table that was renamed has got out whole (`flush_error_recovers`).  The one call
that can tear it unseen is the `fflush` at the end of `Finish`. -/

namespace MiniLevelDB

open Effect

section

variable {dbname : Bytes} {fs fs' : FileSystem} {l l' : List FileEntry} {L : Layers} {db db' : DBImpl}

/-- Where the table has got out whole, a flush that fails leaves what a crash might have left. -/
theorem FlushEnds.flushing {g : FileOp → ℕ → Option ℕ} {s : Status} (h : FlushEnds g l db s db' l')
    (hs : s.ok = false) (hwhole : db.tableOut g = tableBytes db.mem.table) :
    Flushing ⟨db.log_number, .kLogFile⟩ db.next_file_number (tableBytes db.mem.table) l l' := by
  cases h with
  | notCreated _ _ => exact .before
  | notBuilt _ _ _ => exact .writing _
  | notRenamed _ _ => exact .writing _
  | notOpened _ hlen _ =>
      rw [hwhole]
      exact .renamed hlen
  | notClosed _ hlen _ =>
      rw [hwhole]
      exact .renamed hlen
  | notRemoved _ hlen _ =>
      rw [hwhole]
      exact .renamed hlen
  | notReplaced _ hlen _ =>
      rw [hwhole]
      exact .unlogged hlen
  | flushed _ _ => cases hs

/-- The layers where a flush is entered hold what was logged. -/
theorem EntersFlush.recovers {made : List (Call × Option Status)} {pending : List WriteOp}
    (h : EntersFlush dbname (fun _ call => call.Short) made pending fs db)
    (hcount : updatesIn made + 1 < 2 ^ 62) :
    ∃ l L ops, Holds dbname ⟨fs, some db⟩ l L ∧ Numbered ⟨fs, some db⟩ l (4 + 2 * updatesIn made) ∧
      L.Short ∧ L.Below (updatesIn made + 1) ∧ Logs made ops ∧ L.Resolves (ops ++ pending) := by
  cases h with
  | called hreach _ =>
      obtain ⟨l, L, ops, hrep, hlogs, hresolves⟩ := reach_recovers hreach (by omega)
      refine ⟨l, L, ops, hrep.holds, hrep.numbered.mono (by omega), hrep.short,
        hrep.numerous.below.mono (Nat.le_succ _), hlogs, ?_⟩
      rw [List.append_nil]
      exact hresolves
  | filled hreach hshort hrun _ =>
      obtain ⟨l, L, ops, hrep, hlogs, hresolves⟩ := reach_recovers hreach (by omega)
      have hseq := hrep.numerous.last_seq _ rfl
      obtain ⟨l', hlogged, hnumbered', -⟩ :=
        hrep.holds.logAndApply hshort.fits (by omega) hrep.numbered (by omega) hrun
      exact ⟨l', _, ops, hlogged, hnumbered'.mono (by omega), hrep.short.write hshort _,
        hrep.numerous.below.write (Nat.le_succ _) (Nat.succ_le_succ hseq) _, hlogs,
        hresolves.write _ _⟩

end

/-- **After a flush that has failed** whose table has got out whole, the directory is opened again, and its
layers hold the last logged write for each key, the write that came to the flush included. -/
theorem flush_error_recovers {dbname : Bytes} {made : List (Call × Option Status)} {pending : List WriteOp}
    {fs : FileSystem} {db db' : DBImpl} {g : FileOp → ℕ → Option ℕ} {s : Status} {d' : FlakyDisk}
    (h : EntersFlush dbname (fun _ call => call.Short) made pending fs db)
    (hcount : updatesIn made + 1 < 2 ^ 56) (hwhole : db.tableOut g = tableBytes db.mem.table)
    (hrun : db.flushMemTable.run flaky ⟨fs, fun _ => [], g⟩ = .done (s, db') d') (hs : s.ok = false)
    (hfew : ∀ l, Dir dbname d'.files l → ∀ es, tableBytes es ∈ tableContents l → FewBlocks es) :
    ∃ (db'' : DBImpl) (fs'' : FileSystem) (tables : List (List Entry)) (ops : List WriteOp),
      (DBImpl.openDB dbname).run (disk offsetLimit) d'.files = .done (.ok db'') fs'' ∧
        List.Forall₂ StoresEntries tables db''.tables ∧ Logs made ops ∧
        ∀ k, ResolvesTo k (db''.mem.table :: tables) (lastOp k (ops ++ pending)) := by
  obtain ⟨l, L, ops, hholds, hnumbered, hshort, hbelow, hlogs, hresolves⟩ := h.recovers (by omega)
  obtain ⟨b, hst, -⟩ := (hholds.serving db rfl).log
  have hnext := hnumbered.next db rfl
  have hmem := flushMemTable_error_ne_nil hrun hs
  obtain ⟨l', hdir', hends⟩ := (flushMemTable_after hst (by omega) hmem).done hrun
  -- the files are those a crash in the flush might have left
  have hleaves : Leaves l (some db) .flush l' := .flushing (hends.flushing hs hwhole)
  have hbecomes : Becomes dbname ⟨fs, some db⟩ l .flush none ⟨d'.files, none⟩ l' := Or.inr ⟨rfl, rfl, hleaves⟩
  have hroom : LeavesRoom dbname ⟨fs, some db⟩ := hnumbered.leavesRoom hholds.sound.rests.1 (by omega)
  have hrep : Representable ⟨fs, some db⟩ .flush := trivial
  obtain ⟨L', hholds', hadvances⟩ := becomes_holds hholds hroom hrep hdir' hbecomes
  have hnumbered' := numbered_step hholds.sound hroom hnumbered hbecomes
  have hflushes : L.Flushes L' := by
    cases hadvances with
    | crashed hmoves =>
        cases hmoves with
        | flushing hL => exact hL
  obtain ⟨db'', fs'', tables, hopen, hstores, hto⟩ := hholds'.reopened
    (hnumbered'.leavesRoom hdir' (by rw [Call.numbers_eq, Call.updates]; omega)) hfew
    (hshort.flushes hflushes) (hbelow.flushes hflushes) hcount (hresolves.flushes hflushes)
  exact ⟨db'', fs'', tables, ops, hopen, hstores, hlogs, hto⟩

theorem flush_error_recovers_create :
    ∃ (fs : FileSystem) (db db' db'' : DBImpl) (fs'' : FileSystem) (s : Status) (d' : FlakyDisk)
      (tables : List (List Entry)) (ops : List WriteOp) (v : Bytes),
      db.flushMemTable.run flaky ⟨fs, fun _ => [],
          fun o _ => if o = .fopen db.tmp_name .wb then some 0 else none⟩ = .done (s, db') d' ∧
        (DBImpl.openDB (ascii "db")).run (disk offsetLimit) d'.files = .done (.ok db'') fs'' ∧
        List.Forall₂ StoresEntries tables db''.tables ∧ Logs [(.openDB, some Status.OK)] ops ∧
        ∀ k, ResolvesTo k (db''.mem.table :: tables) (lastOp k (ops ++ [.put [1] v])) := by
  obtain ⟨v, hv⟩ : ∃ v : Bytes, v.length = kMaxMemTableBytes := ⟨List.replicate _ 0, List.length_replicate⟩
  obtain ⟨fs, db, l, hfilling⟩ :=
    exists_fillingPut (P := fun _ call => call.Short) hv (fun _ => trivial) fun _ => short_filling hv
  obtain ⟨s, db', d', hrun, hs, hfiles⟩ := @flushMemTable_notCreated fs db hfilling.table_ne_nil
  have hfew : ∀ l', Dir (ascii "db") d'.files l' → ∀ es, tableBytes es ∈ tableContents l' → FewBlocks es := by
    intro l' hdir' es hes
    rw [hfiles] at hdir'
    obtain rfl := hfilling.holds.sound.rests.1.unique hdir'
    rw [hfilling.holds.stores.tables] at hes
    cases hes
  obtain ⟨db'', fs'', tables, ops, hdone⟩ := flush_error_recovers hfilling.enters (by decide)
    (DBImpl.tableOut_of_flushes (if_neg (by simp))) hrun hs hfew
  exact ⟨fs, db, db', db'', fs'', s, d', tables, ops, v, hrun, hdone⟩

end MiniLevelDB
