import MiniLevelDB.FlushFailures
import MiniLevelDB.NullSafety
import MiniLevelDB.WriteOutcome

/-! # Databases after a failed flush

A flush is entered between the calls, or by a write that has filled the memtable (`EntersFlush`).  When it has
returned an error, the database can still be used exactly when the failed call was none of the last three:
closing or removing the old log, and creating the new one (`flush_error_usable`).  After these `log_` is
null, and the next write reads through it (`closed_log_unusable`). -/

namespace MiniLevelDB

open Effect
open LogWriter (recordBytes)

/-! ### Entering a flush -/

/-- The states in which `FlushMemTable` is entered after the calls of a run: between two calls, or in a
write when it has logged its batch and filled the memtable.  The operations are those of this write. -/
inductive EntersFlush (dbname : Bytes) (P : World → Call → Prop) :
    List (Call × Option Status) → List WriteOp → FileSystem → DBImpl → Prop
  | called {made : List (Call × Option Status)} {fs : FileSystem} {db : DBImpl} :
      Reach dbname P ⟨fs, some db⟩ made → P ⟨fs, some db⟩ .flush → EntersFlush dbname P made [] fs db
  | filled {made : List (Call × Option Status)} {fs₀ fs : FileSystem} {db₀ db : DBImpl} {op : WriteOp} :
      Reach dbname P ⟨fs₀, some db₀⟩ made → P ⟨fs₀, some db₀⟩ (.perform op) →
      (db₀.logAndApply (WriteBatch.ofOp op)).run (disk offsetLimit) fs₀ = .done (Status.OK, db) fs →
      kMaxMemTableBytes ≤ db.mem.approximateMemoryUsage → EntersFlush dbname P made [op] fs db

/-- A write continues with the flush it has come to. -/
theorem perform_run_filled {fs₀ fs : FileSystem} {db₀ db : DBImpl} {op : WriteOp} {room : ℕ → Bool}
    (hrun : (db₀.logAndApply (WriteBatch.ofOp op)).run (disk room) fs₀ = .done (Status.OK, db) fs)
    (hfull : kMaxMemTableBytes ≤ db.mem.approximateMemoryUsage) :
    (db₀.perform op).run (disk room) fs₀ = db.flushMemTable.run (disk room) fs := by
  rw [DBImpl.perform_eq, DBImpl.write_eq, Prog.run_bind_done _ hrun, if_pos ⟨rfl, hfull⟩]

section

variable {dbname : Bytes} {fs₀ fs : FileSystem} {l : List FileEntry} {L : Layers} {db₀ db : DBImpl}
  {op : WriteOp} {n : ℕ}

/-- The layers when a write is logged and applied. -/
theorem Holds.logAndApply (h : Holds dbname ⟨fs₀, some db₀⟩ l L) (hfits : op.Fits)
    (hseq : db₀.last_seq + 1 < 2 ^ 64) (hnumbered : Numbered ⟨fs₀, some db₀⟩ l n) (hn : n + 2 < 2 ^ 64)
    (hrun : (db₀.logAndApply (WriteBatch.ofOp op)).run (disk offsetLimit) fs₀ = .done (Status.OK, db) fs) :
    ∃ l', Holds dbname ⟨fs, some db⟩ l' (L.write (db₀.last_seq + 1) op) ∧
      Numbered ⟨fs, some db⟩ l' (n + 2) ∧ db.last_seq = db₀.last_seq + 1 := by
  obtain ⟨b, hst, -⟩ := (h.serving db₀ rfl).log
  have hwpg : (db₀.logAndApply (WriteBatch.ofOp op)).wpg (disk offsetLimit) (Safe false) True
      (fun r fs' => r.1.ok = true → Logged dbname fs' l b (db₀.batchOf op) db₀ r.2 ∧
        r.2.last_seq = seqBehind db₀ (db₀.batchOf op)) (fun _ => True) fs₀ := by
    apply logAndApply_wpg (rfl : db₀.batchOf op = _) hst
    · exact fun _ _ _ _ => trivial
    · intro fs' db' hiter _ _ hok
      rw [hiter] at hok
      cases hok
    · exact fun fs' db' _ hlogged hlast _ => ⟨hlogged, hlast⟩
  obtain ⟨hlogged, hlast⟩ := Prog.wpg_run hwpg hrun rfl
  dsimp only at hlogged hlast
  rw [seqBehind_batchOf op hseq] at hlast
  have htidy := h.sound.tidy
  have hleaves : Leaves l (some db₀) (.perform op) (db₀.logged b op l) :=
    .logging hst.log_mem (List.prefix_refl _)
  have hroom : LeavesRoom dbname ⟨fs₀, some db₀⟩ := hnumbered.leavesRoom h.sound.rests.1 hn
  refine ⟨db₀.logged b op l, ⟨⟨hlogged.standing.rests, (tidy_logAfter htidy hst.log_mem _).1⟩,
    ((h.serving db₀ rfl).stores_logged htidy h.stores hseq hst.log_mem).1, h.wellFormed_write hfits hseq, ?_⟩,
    ⟨numberedFiles_leaves h.sound hroom hnumbered hleaves, ?_⟩, hlast⟩
  · rintro _ ⟨⟩
    exact hlogged.serving h hfits hseq hst.log_mem hlast
  · rintro _ ⟨⟩
    rw [hlogged.next_file_number]
    exact (hnumbered.next db₀ rfl).trans (Nat.le_add_right n 2)

/-- What holds where a flush is entered. -/
theorem EntersFlush.holds {made : List (Call × Option Status)} {pending : List WriteOp}
    (h : EntersFlush dbname (fun _ call => call.Fits) made pending fs db)
    (hcount : updatesIn made < 2 ^ 62) :
    ∃ l L, Holds dbname ⟨fs, some db⟩ l L ∧ Numbered ⟨fs, some db⟩ l (4 + 2 * updatesIn made) := by
  cases h with
  | called hreach _ =>
      obtain ⟨-, l, L, hholds, hnumbered, -⟩ := reach_regular (fun _ _ hP => hP) hreach hcount
      exact ⟨l, L, hholds, hnumbered.mono (by omega)⟩
  | filled hreach hfits hrun _ =>
      obtain ⟨-, l, L, hholds, hnumbered, hnumerous⟩ := reach_regular (fun _ _ hP => hP) hreach hcount
      have hseq := hnumerous.last_seq _ rfl
      obtain ⟨l', hholds', hnumbered', -⟩ :=
        hholds.logAndApply hfits (by omega) hnumbered (by omega) hrun
      exact ⟨l', _, hholds', hnumbered'.mono (by omega)⟩

end

/-! ### Databases that can be used -/

/-- The log pointers are not null and refer to a file that is there, whose replay covers the memtable; every
further write is logged before it changes the memtable, and does not come upon a null pointer. -/
structure Usable (fs : FileSystem) (db : DBImpl) : Prop where
  log_file : db.log_file = some (logFileName db.dbname db.log_number)
  log : ∃ w, db.log = some w ∧ w.file = logFileName db.dbname db.log_number
  log_mem : logFileName db.dbname db.log_number ∈ fs
  replays : (db.replayed fs).1 = Status.OK
  covers : ∀ e ∈ db.mem.table, e ∈ (MemTable.empty.insertAll (db.replayed fs).2).table
  writes : ∀ op, db.LogsFirst op ∧ (db.perform op).Avoids .nullDeref

/-- No operation fails but `bad`. -/
def OnlyFails (bad : FileOp) (g : FileOp → ℕ → Option ℕ) : Prop := ∀ o ≠ bad, ∀ j, g o j = none

theorem OnlyFails.eq {bad o : FileOp} {g : FileOp → ℕ → Option ℕ} (h : OnlyFails bad g) (ho : Fails g o) :
    o = bad := by
  obtain ⟨j, n, hn⟩ := ho
  by_contra hne
  rw [h o hne j] at hn
  cases hn

section

variable {dbname : Bytes} {fs fs' : FileSystem} {l l' : List FileEntry} {L : Layers} {db : DBImpl}

/-- A database that has kept its log can be used. -/
theorem Holds.usable {b : Bytes} (h : Holds dbname ⟨fs, some db⟩ l L) (hst : Standing dbname fs l b db)
    (hdir : Dir dbname fs' l') (hmem : (⟨db.log_number, .kLogFile⟩, b) ∈ l') : Usable fs' db.counted := by
  obtain rfl := hst.name_eq
  obtain ⟨w, hw, hfile, -⟩ := hst.log
  have hreplayed : db.counted.replayed fs' = (Status.OK, L.current) := by
    rw [← h.replayed, DBImpl.replayed, DBImpl.replayed]
    have hget : fs'.get (logFileName db.dbname db.log_number) = fs.get (logFileName db.dbname db.log_number) := by
      rw [logFileName_eq, hdir.get_eq hmem, hst.dir.get_eq hst.log_mem]
    rw [← hget]
    rfl
  refine ⟨hst.log_file, ⟨w, hw, hfile⟩, ?_, by rw [hreplayed], ?_, ?_⟩
  · have hin := hdir.mem hmem
    rw [← logFileName_eq] at hin
    exact hin
  · rw [hreplayed]
    have hmemtable : db.counted.mem = memOf L.current := (h.serving db rfl).mem
    rw [hmemtable]
    exact fun e he => he
  · have hlog : db.counted.log = some w := hw
    have hlog_file : db.counted.log_file = some (logFileName db.dbname db.log_number) := hst.log_file
    exact fun op => ⟨DBImpl.logsFirst hlog op, DBImpl.perform_avoids hlog hlog_file op⟩

theorem not_usable_of_null (h : db.log_file = none) : ¬ Usable fs db := by
  intro husable
  have hfile := husable.log_file
  rw [h] at hfile
  cases hfile

end

/-- **After a flush that has failed** the database can be used, unless the operation that fails is closing or
removing the old log or creating the new one. -/
theorem flush_error_usable {dbname : Bytes} {made : List (Call × Option Status)} {pending : List WriteOp}
    {fs : FileSystem} {db db' : DBImpl} {g : FileOp → ℕ → Option ℕ} {bad : FileOp} {s : Status}
    {d' : FlakyDisk} (h : EntersFlush dbname (fun _ call => call.Fits) made pending fs db)
    (hlen : made.length < 2 ^ 62) (honly : OnlyFails bad g)
    (hrun : db.flushMemTable.run flaky ⟨fs, fun _ => [], g⟩ = .done (s, db') d') (hs : s.ok = false) :
    Usable d'.files db' ↔ bad ≠ .fclose db.old_log_name ∧ bad ≠ .remove db.old_log_name ∧
      bad ≠ .fopen db.new_log_name .ab := by
  have hcount := (updatesIn_le_length made).trans_lt hlen
  obtain ⟨l, L, hholds, hnumbered⟩ := h.holds hcount
  obtain ⟨b, hst, -⟩ := (hholds.serving db rfl).log
  have hnext := hnumbered.next db rfl
  have hmem := flushMemTable_error_ne_nil hrun hs
  obtain ⟨l', hdir', hends⟩ := (flushMemTable_after hst (by omega) hmem).done hrun
  dsimp only at hends
  cases hends with
  | notCreated _ hfails =>
      obtain rfl := honly.eq hfails
      exact iff_of_true (hholds.usable hst hdir' hst.log_mem) (by simp)
  | @notBuilt _ x o _ hchecked hfails =>
      obtain rfl := honly.eq hfails
      refine iff_of_true (hholds.usable hst hdir' (List.mem_append_left _ hst.log_mem)) ?_
      cases o with
      | fwrite file data => simp
      | ftell file => simp
      | _ => exact hchecked.elim
  | notRenamed _ hfails =>
      obtain rfl := honly.eq hfails
      exact iff_of_true (hholds.usable hst hdir' (List.mem_append_left _ hst.log_mem)) (by simp)
  | notOpened _ hlen hwhy =>
      refine iff_of_true (hholds.usable hst hdir' (List.mem_append_left _ hst.log_mem)) ?_
      rcases hwhy with hfails | hfails | herror
      · obtain rfl := honly.eq hfails
        simp
      · obtain rfl := honly.eq hfails
        simp
      · -- a table that got out whole opens
        by_cases hflush : g (.fflush db.tmp_name) 0 = none
        · rw [DBImpl.tableOut_of_flushes hflush] at herror
          exact absurd herror (load_tableBytes_not_error hlen)
        · obtain ⟨n, hn⟩ := Option.ne_none_iff_exists'.mp hflush
          obtain rfl := honly.eq ⟨0, n, hn⟩
          simp
  | notClosed _ _ hfails =>
      obtain rfl := honly.eq hfails
      exact iff_of_false (not_usable_of_null rfl) (by simp)
  | notRemoved _ _ hfails =>
      obtain rfl := honly.eq hfails
      exact iff_of_false (not_usable_of_null rfl) (by simp)
  | notReplaced _ _ hfails =>
      obtain rfl := honly.eq hfails
      exact iff_of_false (not_usable_of_null rfl) (by simp)
  | flushed _ _ => cases hs

/-! ### A put that fills the memtable -/

/-- The calls of a process that has put the value `v`. -/
def fillingCalls (v : Bytes) : List (ℕ × WriteOp) := [(1, .put [1] v)]

theorem memoryUsage_filling (v : Bytes) :
    (memOf (fillingCalls v)).approximateMemoryUsage =
      (memOf []).approximateMemoryUsage + (v.length + 137) := by
  have hconcat := memoryUsage_concat [] (1, .put [1] v)
  rw [callEntry_footprint] at hconcat
  rw [fillingCalls, ← List.nil_append [(1, WriteOp.put [1] v)], hconcat]
  simp only [WriteOp.key, WriteOp.value, List.length_singleton]
  omega

theorem short_filling {v : Bytes} (hv : v.length = kMaxMemTableBytes) : (WriteOp.put [1] v).Short := by
  refine ⟨(by decide : 1 < 2 ^ 30), ?_⟩
  change v.length < 2 ^ 30
  rw [hv]
  decide

theorem fits_filling {v : Bytes} (hv : v.length = kMaxMemTableBytes) : (WriteOp.put [1] v).Fits := by
  obtain ⟨hkey, hvalue⟩ := short_filling hv
  exact ⟨hkey.trans (by decide), hvalue.trans (by decide)⟩

theorem smallCalls_filling {v : Bytes} (hv : v.length = kMaxMemTableBytes) : SmallCalls (fillingCalls v) := by
  have hempty : (memOf []).approximateMemoryUsage < 2 ^ 39 := by decide
  have husage := memoryUsage_filling v
  rw [hv, kMaxMemTableBytes] at husage
  change (memOf (fillingCalls v)).approximateMemoryUsage < 2 ^ 40
  omega

/-- A process has opened an empty directory and put the value `v`, and the put has entered the flush. -/
structure FillingPut (P : World → Call → Prop) (v : Bytes) (fs : FileSystem) (db : DBImpl)
    (l : List FileEntry) : Prop where
  enters : EntersFlush (ascii "db") P [(.openDB, some Status.OK)] [.put [1] v] fs db
  holds : Holds (ascii "db") ⟨fs, some db⟩ l ⟨[], fillingCalls v⟩
  numbered : Numbered ⟨fs, some db⟩ l 4

theorem exists_fillingPut {P : World → Call → Prop} {v : Bytes} (hv : v.length = kMaxMemTableBytes)
    (hopen : ∀ w, P w .openDB) (hput : ∀ w, P w (.perform (.put [1] v))) :
    ∃ fs db l, FillingPut P v fs db l := by
  obtain ⟨fs₀, db₀, l, hreach, hsteady, hlast⟩ := exists_opened (@Dir.empty (ascii "db")) (hopen _)
  have hfits := fits_filling hv
  have hseq : db₀.last_seq + 1 < 2 ^ 64 := by omega
  have hcalls : Layers.empty.write (db₀.last_seq + 1) (.put [1] v) = ⟨[], fillingCalls v⟩ := by
    rw [hlast]
    rfl
  have hrep : Representable ⟨fs₀, some db₀⟩ (.perform (.put [1] v)) := by
    refine ⟨hfits, ?_⟩
    rintro _ ⟨⟩
    exact hseq
  have hsmall : SmallWith Layers.empty (some db₀) (.perform (.put [1] v)) := by
    refine ⟨hsteady.small, ?_⟩
    rintro _ _ ⟨⟩ ⟨⟩ calls hmem
    rw [hcalls] at hmem
    obtain rfl := List.mem_singleton.mp hmem
    exact smallCalls_filling hv
  have hroom := hsteady.holds.hasRoom hsteady.compact hrep hsmall
  obtain ⟨b, hst, -⟩ := (hsteady.holds.serving db₀ rfl).log
  obtain ⟨db, fs, hrun, hmem⟩ := hst.exists_logAndApply (.put [1] v) (hroom.1 b hst.log_mem)
    (by rw [DBImpl.batchOf_iterate hfits hseq]; rfl)
  obtain ⟨l', hholds, hnumbered, -⟩ := hsteady.holds.logAndApply hfits hseq hsteady.numbered (by decide) hrun
  rw [hcalls] at hholds
  have hfull : kMaxMemTableBytes ≤ db.mem.approximateMemoryUsage := by
    rw [(hholds.serving db rfl).mem, memoryUsage_filling, hv]
    omega
  exact ⟨fs, db, l', .filled hreach (hput _) hrun hfull, hholds, hnumbered⟩

theorem FillingPut.table_ne_nil {P : World → Call → Prop} {v : Bytes} {fs : FileSystem} {db : DBImpl}
    {l : List FileEntry} (h : FillingPut P v fs db l) : db.mem.table ≠ [] := by
  rw [(h.holds.serving db rfl).mem]
  exact fun hempty => by cases memOf_table_eq_nil.mp hempty

/-- The flush has an end where the temporary table is created and written without a failure. -/
theorem FillingPut.flush_ends {P : World → Call → Prop} {v : Bytes} {fs : FileSystem} {db : DBImpl}
    {l : List FileEntry} {g : FileOp → ℕ → Option ℕ} (h : FillingPut P v fs db l)
    (hv : v.length = kMaxMemTableBytes) (hcreated : g (.fopen db.tmp_name .wb) 0 = none)
    (hwritten : ∀ o, Checked db.tmp_name o → ∀ j, g o j = none)
    (hload : ∀ f, Table.load (RFile.ofBytes (db.tableOut g)) ≠ .error f) :
    ∃ s db' d', db.flushMemTable.run flaky ⟨fs, fun _ => [], g⟩ = .done (s, db') d' ∧
      FlushDone (ascii "db") g l db (s, db') d' := by
  have hserving := h.holds.serving db rfl
  obtain ⟨b, hst, -⟩ := hserving.log
  have hnext := h.numbered.next db rfl
  have hmem := h.table_ne_nil
  have hlen : (tableBytes db.mem.table).length < 2 ^ 63 := by
    rw [hserving.mem]
    exact (smallCalls_filling hv).table_lt
  obtain ⟨⟨s, db'⟩, d', hrun, hdone⟩ :=
    flushMemTable_ends hst (by omega) hmem hlen hcreated hwritten hload
  exact ⟨s, db', d', hrun, hdone⟩

theorem flush_error_usable_create :
    ∃ (fs : FileSystem) (db db' : DBImpl) (d' : FlakyDisk) (s : Status),
      db.flushMemTable.run flaky ⟨fs, fun _ => [],
        fun o _ => if o = .fopen db.tmp_name .wb then some 0 else none⟩ = .done (s, db') d' ∧
        s.ok = false ∧ Usable d'.files db' := by
  obtain ⟨v, hv⟩ : ∃ v : Bytes, v.length = kMaxMemTableBytes := ⟨List.replicate _ 0, List.length_replicate⟩
  obtain ⟨fs, db, l, hfilling⟩ :=
    exists_fillingPut (P := fun _ call => call.Fits) hv (fun _ => trivial) fun _ => fits_filling hv
  obtain ⟨s, db', d', hrun, hs, -⟩ := @flushMemTable_notCreated fs db hfilling.table_ne_nil
  refine ⟨fs, db, db', d', s, hrun, hs, ?_⟩
  have honly : OnlyFails (.fopen db.tmp_name .wb)
      fun o _ => if o = .fopen db.tmp_name .wb then some 0 else none := fun o ho _ => if_neg ho
  exact (flush_error_usable hfilling.enters (by decide) honly hrun hs).mpr (by simp)

/-- **A flush that cannot close the old log** leaves a database that cannot be used. -/
theorem closed_log_unusable :
    ¬ ∀ (dbname : Bytes) (made : List (Call × Option Status)) (pending : List WriteOp) (fs : FileSystem)
      (db db' : DBImpl) (g : FileOp → ℕ → Option ℕ) (bad : FileOp) (s : Status) (d' : FlakyDisk),
      EntersFlush dbname (fun _ call => call.Fits) made pending fs db → OnlyFails bad g →
      db.flushMemTable.run flaky ⟨fs, fun _ => [], g⟩ = .done (s, db') d' → s.ok = false →
      Usable d'.files db' := by
  intro hclaim
  obtain ⟨v, hv⟩ : ∃ v : Bytes, v.length = kMaxMemTableBytes := ⟨List.replicate _ 0, List.length_replicate⟩
  obtain ⟨fs, db, l, hfilling⟩ :=
    exists_fillingPut (P := fun _ call => call.Fits) hv (fun _ => trivial) fun _ => fits_filling hv
  have honly : OnlyFails (.fclose db.old_log_name)
      fun o _ => if o = .fclose db.old_log_name then some 0 else none := fun o ho _ => if_neg ho
  have hout : db.tableOut (fun o _ => if o = .fclose db.old_log_name then some 0 else none) =
      tableFor (fillingCalls v) := by
    rw [DBImpl.tableOut_of_flushes (if_neg (by simp)), (hfilling.holds.serving db rfl).mem]
    rfl
  have hsmall := smallCalls_filling hv
  obtain ⟨t, ht⟩ := hsmall.mountable.load hsmall.table_lt
  obtain ⟨s, db', d', hrun, l', hdir', hends⟩ := hfilling.flush_ends hv
    (g := fun o _ => if o = .fclose db.old_log_name then some 0 else none) (if_neg (by simp))
    (fun o ho _ => if_neg fun heq => by rw [heq] at ho; exact ho)
    (fun f hf => by rw [hout, ht] at hf; cases hf)
  cases hends with
  | notCreated _ hfails => cases honly.eq hfails
  | notBuilt _ hchecked hfails =>
      obtain rfl := honly.eq hfails
      exact hchecked
  | notRenamed _ hfails => cases honly.eq hfails
  | notOpened _ _ hwhy =>
      rcases hwhy with hfails | hfails | herror
      · cases honly.eq hfails
      · cases honly.eq hfails
      · rw [hout, ht] at herror
        cases herror
  | notClosed hs _ _ =>
      exact not_usable_of_null rfl (hclaim _ _ _ _ _ _ _ _ _ _ hfilling.enters honly hrun hs)
  | notRemoved _ _ hfails => cases honly.eq hfails
  | notReplaced _ _ hfails => cases honly.eq hfails
  | flushed _ hcloses =>
      obtain ⟨j, hj⟩ := hcloses
      cases (if_pos rfl).symm.trans hj

end MiniLevelDB
