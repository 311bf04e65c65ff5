import MiniLevelDB.Recovery

/-! # A table with too many blocks

A process puts `2 ^ 34` values of a block each, and crashes in every call as soon as the record is in the
log; in the last call it crashes when the table has got its name.  The index block of this table has
`2 ^ 30` restart points, whose bytes the constructor counts in 32 bits, and the directory cannot be opened
again (`huge_table_not_opened`). -/

namespace MiniLevelDB

open Effect Posix
open LogWriter (recordBytes)

/-! ### Crashes at given moments -/

section

variable {dbname : Bytes} {fs : FileSystem} {l : List FileEntry} {db : DBImpl} {b : Bytes}

/-- A flush may be cut off when the table has got its name. -/
theorem DBImpl.flush_crash (hname : db.dbname = dbname) (hdir : Dir dbname fs l)
    (hnew : ∀ p ∈ l, p.1.number < db.next_file_number) (hn : db.next_file_number < 2 ^ 64)
    (hmem : db.mem.table ≠ []) (hlen : (tableBytes db.mem.table).length < 2 ^ 63) :
    ∃ fs', db.flushMemTable.Crash (disk offsetLimit) fs fs' ∧
      Dir dbname fs' (l ++ [(⟨db.next_file_number, .kTableFile⟩, tableBytes db.mem.table)]) := by
  have htmp := hdir.insert_new (f := ⟨db.next_file_number, .kTempFile⟩) hn hnew (tableBytes db.mem.table)
  have hexists : fileName dbname ⟨db.next_file_number, .kTempFile⟩ ∈
      fs.insert (fileName dbname ⟨db.next_file_number, .kTempFile⟩) (tableBytes db.mem.table) :=
    (AList.mem_insert _).mpr (Or.inl rfl)
  refine ⟨_, ?_, htmp.rename hnew .kTableFile⟩
  unfold DBImpl.flushMemTable
  rw [if_neg hmem]
  simp only [hname, tempFileName_eq, tableFileName_eq]
  have hopen : (fopen (fileName dbname ⟨db.next_file_number, .kTempFile⟩) .wb).run (disk offsetLimit) fs =
      .done true (fs.insert (fileName dbname ⟨db.next_file_number, .kTempFile⟩) []) := rfl
  apply Prog.crash_of_bind_run _ hopen
  rw [if_neg (by simp)]
  obtain ⟨builder, hbuild⟩ := @TableBuilder.buildFrom_run
    (fileName dbname ⟨db.next_file_number, .kTempFile⟩) fs _ hlen
  apply Prog.crash_of_bind_run _ hbuild
  have hclose : ∀ fs' : FileSystem, builder.close.run (disk offsetLimit) fs' = .done () fs' := fun _ => rfl
  apply Prog.crash_of_bind_run _ (hclose _)
  simp only [Status.ok_OK, Bool.not_true, Bool.false_eq_true, if_false]
  exact .later (if_pos hexists) (.now _ _)

/-- A write may be cut off when its record is in the log. -/
theorem DBImpl.perform_crash_logged (hst : Standing dbname fs l b db) (op : WriteOp)
    (hroom : b.length + (recordBytes b.length (db.batchOf op).rep).length < 2 ^ 63) :
    ∃ fs', (db.perform op).Crash (disk offsetLimit) fs fs' ∧ Dir dbname fs' (db.logged b op l) := by
  obtain ⟨w, w', fs₁, hw, hrun, hdir⟩ := hst.exists_addRecord op hroom
  refine ⟨fs₁, ?_, hdir⟩
  rw [DBImpl.perform_eq]
  unfold DBImpl.write
  rw [hw]
  exact Prog.crash_of_bind_run _ hrun (.now _ _)

/-- A write that fills the memtable may be cut off when the table has got its name. -/
theorem DBImpl.perform_crash_renamed (hst : Standing dbname fs l b db) (op : WriteOp)
    (hn : db.next_file_number < 2 ^ 64)
    (hroom : b.length + (recordBytes b.length (db.batchOf op).rep).length < 2 ^ 63)
    (hiter : (db.batchOf op).iterate.1.ok = true)
    (hfull : kMaxMemTableBytes ≤ (db.memAfter op).approximateMemoryUsage)
    (hlen : (tableBytes (db.memAfter op).table).length < 2 ^ 63) :
    ∃ fs', (db.perform op).Crash (disk offsetLimit) fs fs' ∧ Dir dbname fs'
      (db.logged b op l ++ [(⟨db.next_file_number, .kTableFile⟩, tableBytes (db.memAfter op).table)]) := by
  obtain ⟨w, w', fs₁, hw, hrun, hdir⟩ := hst.exists_addRecord op hroom
  have hmem : (db.memAfter op).table ≠ [] := by
    intro hempty
    rw [MemTable.approximateMemoryUsage_eq, hempty] at hfull
    exact absurd hfull (by decide)
  have hflush := fun seq => @DBImpl.flush_crash dbname fs₁ (db.logged b op l)
    { db with log := some w', mem := db.memAfter op, last_seq := seq } hst.name_eq hdir
    (number_logAfter hst.number b _) hn hmem hlen
  obtain ⟨fs', hcrash, hdir'⟩ := hflush (((db.last_seq : ℤ) + (db.batchOf op).count) % 2 ^ 64).toNat
  refine ⟨fs', ?_, hdir'⟩
  rw [DBImpl.perform_eq]
  unfold DBImpl.write
  rw [hw]
  apply Prog.crash_of_bind_run _ hrun
  have hiter' : (!(db.batchOf op).iterate.1.ok) = false := by rw [hiter, Bool.not_true]
  rw [DBImpl.batchOf] at hiter'
  simp only [Status.ok_OK, Bool.not_true, Bool.false_eq_true, if_false, hiter']
  rw [if_pos]
  · exact hcrash
  · exact hfull

end

/-! ### The calls of the process -/

/-- The calls of `n` puts of the value `v`. -/
def fill (v : Bytes) (n : ℕ) : List (ℕ × WriteOp) := (List.range n).map fun i => (i + 1, .put [1] v)

section

variable (v : Bytes) (n : ℕ)

theorem fill_succ : fill v (n + 1) = fill v n ++ [(n + 1, .put [1] v)] := by
  rw [fill, List.range_succ, List.map_append]
  rfl

theorem greatest_fill : greatest (fill v n) = n := by
  induction n with
  | zero => rfl
  | succ n ih =>
      rw [fill_succ, greatest_append, ih, greatest, greatest]
      omega

theorem length_fill : (fill v n).length = n := by rw [fill, List.length_map, List.length_range]

/-- The memory of the memtable. -/
theorem memoryUsage_fill :
    (memOf (fill v n)).approximateMemoryUsage =
      (memOf []).approximateMemoryUsage + n * (v.length + 137) := by
  induction n with
  | zero => simp [fill]
  | succ n ih =>
      rw [fill_succ, memoryUsage_concat, ih, callEntry_footprint, Nat.succ_mul]
      simp only [WriteOp.key, WriteOp.value, List.length_singleton]
      omega

end

theorem cutBlocks_of_long {es : List Entry} (h : ∀ e ∈ es, TableBuilder.kBlockSize ≤ e.2.length) :
    cutBlocks [] es = es.map fun e => [e] := by
  induction es with
  | nil => rfl
  | cons e es ih =>
      have hlen : TableBuilder.kBlockSize ≤ sizeEstimate [e] := by
        have hvalue := h e List.mem_cons_self
        have hentry : e.2.length ≤ (encodeEntries 0 [] [e]).length := by
          simp only [encodeEntries, entryBytes, List.append_nil, List.length_append]
          omega
        rw [sizeEstimate_eq, blockContents_length]
        omega
      rw [cutBlocks, List.nil_append, if_pos hlen, ih fun e' he' => h e' (List.mem_cons_of_mem _ he')]
      rfl

/-- Every value fills a block. -/
theorem dataBlocks_fill {v : Bytes} (hv : TableBuilder.kBlockSize ≤ v.length) (n : ℕ) :
    (dataBlocks (memOf (fill v n)).table).length = n := by
  have hlong : ∀ e ∈ (memOf (fill v n)).table, TableBuilder.kBlockSize ≤ e.2.length := by
    intro e he
    obtain ⟨c, hc, rfl⟩ := mem_memOf.mp he
    obtain ⟨i, -, rfl⟩ := List.mem_map.mp hc
    exact hv
  rw [dataBlocks, cutBlocks_of_long hlong, List.length_map, memOf, MemTable.length_insertAll, length_fill]
  exact Nat.zero_add n

/-- The constructor reads behind the restart points of a block with `2 ^ 30` of them. -/
theorem new_blockContents_fault {es : List Entry} (h : restartCount es.length = 2 ^ 30) :
    ∃ f, Block.new (blockContents es) = .error f := by
  have hlen := blockContents_length es
  have hstored : Block.storedCount (blockContents es) = 2 ^ 30 := by
    rw [Block.storedCount, decodeFixed32_restartCount (by omega), h]
  cases hnew : Block.new (blockContents es) with
  | error f => exact ⟨f, rfl⟩
  | ok b =>
      have hfits := (Block.new_ok_iff _).mp ⟨b, hnew⟩
      rw [Block.CountFits, hstored] at hfits
      omega

/-! ### The run -/

/-- A run with short calls whose crashes have left `n` values in the log. -/
structure Filled (v : Bytes) (n : ℕ) (fs : FileSystem) (l : List FileEntry)
    (made : List (Call × Option Status)) : Prop where
  reach : Reach (ascii "db") (fun _ call => call.Short) ⟨fs, none⟩ made
  holds : Holds (ascii "db") ⟨fs, none⟩ l ⟨[], fill v n⟩
  numbered : Numbered ⟨fs, none⟩ l (2 + 2 * n)
  compact : Compact l ⟨[], fill v n⟩
  updates : updatesIn made = n

theorem filled_start (v : Bytes) : Filled v 0 ∅ [] [] where
  reach := .start Dir.empty
  holds := holds_start Dir.empty
  numbered := numbered_start ∅
  compact := compact_start
  updates := rfl

/-- The database is opened after such a run, to put a further value. -/
structure Refilling (v : Bytes) (n : ℕ) (fs : FileSystem) (l : List FileEntry)
    (made : List (Call × Option Status)) (db : DBImpl) (b : Bytes) : Prop where
  reach : Reach (ascii "db") (fun _ call => call.Short) ⟨fs, some db⟩ made
  holds : Holds (ascii "db") ⟨fs, some db⟩ l ⟨[], fill v n⟩
  numbered : Numbered ⟨fs, some db⟩ l (2 + 2 * n)
  updates : updatesIn made = n
  standing : Standing (ascii "db") fs l b db
  last_seq : db.last_seq = n
  memAfter : db.memAfter (.put [1] v) = memOf (fill v (n + 1))
  logged : (b ++ recordBytes b.length (db.batchOf (.put [1] v)).rep).length ≤
    27 * (memOf (fill v (n + 1))).approximateMemoryUsage

section

variable {v : Bytes} {n : ℕ} {fs : FileSystem} {l : List FileEntry} {made : List (Call × Option Status)}
  {db : DBImpl} {b : Bytes}

theorem Filled.exists_refilling (h : Filled v n fs l made) (hv : v.length = TableBuilder.kBlockSize)
    (hn : n < 2 ^ 34) : ∃ fs' l' made' db b, Refilling v n fs' l' made' db b := by
  have hrep : Representable ⟨fs, none⟩ .openDB := trivial
  have hfault : ¬ Faults l none .openDB := h.holds.not_faults_openDB fun _ hcalls => by cases hcalls
  obtain ⟨s, open', fs', l', L', hrun, hturns, hholds, hnumbered, hcompact⟩ :=
    h.holds.exists_done h.numbered h.compact (by omega) hrep hfault trivial rfl
  cases hturns with
  | @opened db _ hlast =>
      rw [greatest_fill] at hlast
      obtain ⟨b, hst, -⟩ := (hholds.serving db rfl).log
      have hfits : (WriteOp.put [1] v).Fits := by
        refine ⟨(by decide : 1 < 2 ^ 32), ?_⟩
        change v.length < 2 ^ 32
        rw [hv]
        decide
      have hseq : db.last_seq + 1 < 2 ^ 64 := by omega
      have hafter : db.memAfter (.put [1] v) = memOf (fill v (n + 1)) := by
        rw [(hholds.serving db rfl).memAfter hfits hseq, Layers.write, fill_succ, hlast]
      have hlogged := hcompact.logged hholds hfits hseq hst.log_mem
      rw [hafter] at hlogged
      have hshort : Call.Short .openDB := trivial
      have hstep : Step (ascii "db") ⟨fs, none⟩ .openDB (some Status.OK) ⟨fs', some db⟩ := .done rfl hrun
      refine ⟨fs', l', _, db, b, .step h.reach hshort hstep, hholds, hnumbered, ?_, hst, hlast, hafter,
        hlogged⟩
      rw [updatesIn_concat, h.updates]
      rfl

theorem Refilling.short (hv : v.length = TableBuilder.kBlockSize) :
    Call.Short (.perform (.put [1] v)) := by
  refine ⟨(by decide : 1 < 2 ^ 30), ?_⟩
  change v.length < 2 ^ 30
  rw [hv]
  decide

/-- The files have room for the values. -/
theorem usage_fill_lt (hv : v.length = TableBuilder.kBlockSize) (hn : n ≤ 2 ^ 34) :
    27 * (memOf (fill v n)).approximateMemoryUsage < 2 ^ 55 := by
  have hempty : (memOf []).approximateMemoryUsage < 2 ^ 40 := by decide
  rw [memoryUsage_fill, hv, TableBuilder.kBlockSize]
  omega

theorem Refilling.room (h : Refilling v n fs l made db b) (hv : v.length = TableBuilder.kBlockSize)
    (hn : n < 2 ^ 34) :
    b.length + (recordBytes b.length (db.batchOf (.put [1] v)).rep).length < 2 ^ 63 := by
  have husage := @usage_fill_lt v (n + 1) hv hn
  have hlogged := h.logged
  rw [List.length_append] at hlogged
  omega

/-- The call is cut off when its record is in the log. -/
theorem Refilling.exists_filled (h : Refilling v n fs l made db b) (hv : v.length = TableBuilder.kBlockSize)
    (hn : n < 2 ^ 34) : ∃ fs' l' made', Filled v (n + 1) fs' l' made' := by
  obtain ⟨fs', hcrash, hdir'⟩ := DBImpl.perform_crash_logged h.standing (.put [1] v) (h.room hv hn)
  have htidy := h.holds.sound.tidy
  have hroom : LeavesRoom (ascii "db") ⟨fs, some db⟩ :=
    h.numbered.leavesRoom h.holds.sound.rests.1 (by omega)
  have hseq : db.last_seq + 1 < 2 ^ 64 := by
    rw [h.last_seq]
    omega
  have hwrite : Layers.write ⟨[], fill v n⟩ (db.last_seq + 1) (.put [1] v) = ⟨[], fill v (n + 1)⟩ := by
    rw [Layers.write, fill_succ, h.last_seq]
  obtain ⟨hstores, -⟩ :=
    (h.holds.serving db rfl).stores_logged htidy h.holds.stores hseq h.standing.log_mem
  have hwellFormed := h.holds.wellFormed_write (Refilling.short hv).fits hseq
  rw [hwrite] at hstores hwellFormed
  have hleaves : Leaves l (some db) (.perform (.put [1] v)) (db.logged b (.put [1] v) l) :=
    .logging h.standing.log_mem (List.prefix_refl _)
  have hbecomes : Becomes (ascii "db") ⟨fs, some db⟩ l (.perform (.put [1] v)) none ⟨fs', none⟩
      (db.logged b (.put [1] v) l) := Or.inr ⟨rfl, rfl, hleaves⟩
  have hnumbered := numbered_step h.holds.sound hroom h.numbered hbecomes
  refine ⟨fs', db.logged b (.put [1] v) l, _, .step h.reach (Refilling.short hv) (.crash rfl (Prog.Crash.bind _ hcrash _)),
    ⟨⟨rests_closed hdir', (tidy_logAfter htidy h.standing.log_mem _).1⟩, hstores, hwellFormed,
      fun _ hdb => by cases hdb⟩, ?_, ?_, ?_⟩
  · exact hnumbered
  · intro c hc
    rw [DBImpl.logged, logContents_logAfter htidy h.standing.log_mem] at hc
    obtain rfl := List.mem_singleton.mp hc
    exact h.logged
  · rw [updatesIn_concat, h.updates]
    rfl

theorem exists_filled (hv : v.length = TableBuilder.kBlockSize) (hn : n ≤ 2 ^ 34) :
    ∃ fs l made, Filled v n fs l made := by
  induction n with
  | zero => exact ⟨∅, [], [], filled_start v⟩
  | succ n ih =>
      obtain ⟨fs, l, made, hfilled⟩ := ih (by omega)
      obtain ⟨fs', l', made', db, b, hrefilling⟩ := hfilled.exists_refilling hv hn
      exact hrefilling.exists_filled hv hn

/-- The last call is cut off when the table has got its name. -/
theorem Refilling.exists_renamed (h : Refilling v n fs l made db b)
    (hv : v.length = TableBuilder.kBlockSize) (hn : n + 1 = 2 ^ 34) :
    ∃ fs' l' made', Reach (ascii "db") (fun _ call => call.Short) ⟨fs', none⟩ made' ∧
      updatesIn made' = 2 ^ 34 ∧ LeavesRoom (ascii "db") ⟨fs', none⟩ ∧ Dir (ascii "db") fs' l' ∧
      tableFor (fill v (2 ^ 34)) ∈ tableContents l' := by
  have husage := @usage_fill_lt v (n + 1) hv hn.le
  have hlen := tableBytes_length_le (memOf (fill v (n + 1))).table
  rw [MemTable.approximateMemoryUsage_eq] at husage
  have hfits := (Refilling.short hv).fits
  have hiter := @DBImpl.batchOf_iterate db _ hfits (by rw [h.last_seq]; omega)
  have hfull : kMaxMemTableBytes ≤ (db.memAfter (.put [1] v)).approximateMemoryUsage := by
    rw [h.memAfter, memoryUsage_fill, hv, hn, TableBuilder.kBlockSize, kMaxMemTableBytes]
    omega
  have hroom : LeavesRoom (ascii "db") ⟨fs, some db⟩ :=
    h.numbered.leavesRoom h.holds.sound.rests.1 (by omega)
  have hnext : db.next_file_number + 2 < 2 ^ 64 := hroom.2 db rfl
  obtain ⟨fs', hcrash, hdir'⟩ := DBImpl.perform_crash_renamed h.standing (.put [1] v) (by omega)
    (h.room hv (by omega)) (by rw [hiter]; rfl) hfull (by rw [h.memAfter]; omega)
  rw [h.memAfter, hn] at hdir'
  refine ⟨fs', _, _, .step h.reach (Refilling.short hv) (.crash rfl (Prog.Crash.bind _ hcrash _)), ?_, ?_, hdir', ?_⟩
  · rw [updatesIn_concat, h.updates, ← hn]
    rfl
  · constructor
    · intro l' hl' p hp
      obtain rfl := hdir'.unique hl'
      rcases List.mem_append.mp hp with hp | hp
      · have := number_logAfter h.standing.number b _ p hp
        omega
      · obtain rfl := List.mem_singleton.mp hp
        exact hnext
    · exact fun _ hdb => by cases hdb
  · rw [tableContents_append]
    exact List.mem_append_right _ (List.mem_singleton.mpr rfl)

end

/-- **A run after which the directory is not opened**: a table has too many blocks. -/
theorem huge_table_not_opened :
    ¬ ∀ (dbname : Bytes) (w : World) (made : List (Call × Option Status)),
      Reach dbname (fun _ call => call.Short) w made → updatesIn made < 2 ^ 56 → w.db = none →
      ∃ (db : DBImpl) (fs' : FileSystem) (tables : List (List Entry)) (ops : List WriteOp),
        (DBImpl.openDB dbname).run (disk offsetLimit) w.fs = .done (.ok db) fs' ∧
          List.Forall₂ StoresEntries tables db.tables ∧ Logs made ops ∧
          ∀ k, ResolvesTo k (db.mem.table :: tables) (lastOp k ops) := by
  intro hclaim
  obtain ⟨v, hv⟩ : ∃ v : Bytes, v.length = TableBuilder.kBlockSize :=
    ⟨List.replicate _ 0, List.length_replicate⟩
  obtain ⟨fs, l, made, hfilled⟩ := @exists_filled v (2 ^ 34 - 1) hv (by omega)
  obtain ⟨fs₁, l₁, made₁, db₁, b₁, hrefilling⟩ := hfilled.exists_refilling hv (by omega)
  obtain ⟨fs₂, l₂, made₂, hreach, hupdates, hroom, hdir, hmem⟩ := hrefilling.exists_renamed hv (by omega)
  obtain ⟨db, fs', -, -, hopen, -⟩ := hclaim _ _ _ hreach (by rw [hupdates]; decide) rfl
  have hwpg := call_wpg (rests_closed hdir) hroom (rfl : Call.program (ascii "db") .openDB none = some _)
  obtain ⟨l', -, hends⟩ := Prog.wpg_run hwpg (Prog.run_bind_done _ hopen)
  have hbytes := tableBytes_length_le (memOf (fill v (2 ^ 34))).table
  have husage := @usage_fill_lt v (2 ^ 34) hv (le_refl _)
  rw [MemTable.approximateMemoryUsage_eq] at husage
  have hlen : (tableFor (fill v (2 ^ 34))).length < 2 ^ 63 := by
    rw [tableFor]
    omega
  have hindex : (indexContents (dataBlocks (memOf (fill v (2 ^ 34))).table)).length + kBlockTrailerSize ≤
      maxStringSize := by
    rw [tableBytes_length] at hbytes
    rw [maxStringSize]
    omega
  have hcount : restartCount (indexEntries 0 (dataBlocks (memOf (fill v (2 ^ 34))).table)).length = 2 ^ 30 := by
    rw [indexEntries_length, dataBlocks_fill hv.ge]
    rfl
  obtain ⟨f, hf⟩ := new_blockContents_fault hcount
  have hload : Table.load (RFile.ofBytes (tableFor (fill v (2 ^ 34)))) = .error f := by
    rw [tableFor, load_tableBytes_eq hlen hindex, indexContents, hf]
  cases hends with
  | opened hopened =>
      obtain ⟨t, -, ht⟩ := exists_of_forall₂ hopened.tables (List.mem_reverse.mpr hmem)
      rw [Opens, hload] at ht
      cases ht

end MiniLevelDB
