import MiniLevelDB.Opening

/-! # Writing to a database

`DBImpl::Write` and `DBImpl::FlushMemTable` on the directory.  `Standing` says how an open database
rests on its files; `Flushing` lists what a flush makes of a directory, one stage after the other.
`write_wpg` is the specification of a write, with the flush it may end in. -/

namespace MiniLevelDB

open Effect Posix
open LogWriter (recordBytes)

/-! ### Programs that only append -/

namespace LogWriter

theorem padTail_harmless (w : LogWriter) : w.padTail.Only Harmless := by
  unfold padTail
  dsimp only
  split
  · exact only_op (harmless_fwrite _ _) fun _ => trivial
  · trivial

theorem emitPhysicalRecord_harmless (w : LogWriter) (type : RecordType) (ptr : Bytes) :
    (w.emitPhysicalRecord type ptr).Only Harmless := by
  apply only_op (harmless_fwrite _ _)
  intro n
  split
  · trivial
  · split
    · apply only_op (harmless_fwrite _ _)
      intro m
      split <;> trivial
    · trivial

theorem addFragments_harmless (w : LogWriter) (ptr : Bytes) (first : Bool) :
    (w.addFragments ptr first).Only Harmless := by
  induction w, ptr, first using addFragments.induct with
  | case1 w ptr first ih =>
      rw [addFragments]
      apply (padTail_harmless w).bind
      intro padded
      split
      · apply (emitPhysicalRecord_harmless _ _ _).bind
        intro s
        split
        · split
          · next hlt => exact ih hlt
          · exact only_op (harmless_fflush _) fun _ => trivial
        · trivial
      · trivial

theorem addRecord_harmless (w : LogWriter) (data : Bytes) : (w.addRecord data).Only Harmless :=
  addFragments_harmless w data true

end LogWriter

namespace TableBuilder

theorem writeBlock_harmless (file : FILE) (contents : Bytes) :
    (writeBlock file contents).Only Harmless := by
  apply only_op (harmless_ftell _)
  intro off
  split
  · trivial
  · apply only_op (harmless_fwrite _ _)
    intro n
    split
    · trivial
    · apply only_op (harmless_fwrite _ _)
      intro n
      split <;> trivial

theorem flushDataBlock_harmless (b : TableBuilder) : b.flushDataBlock.Only Harmless := by
  unfold flushDataBlock
  split
  · trivial
  · apply (writeBlock_harmless _ _).bind
    rintro ⟨s, handle⟩
    dsimp only
    split <;> trivial

theorem add_harmless (b : TableBuilder) (key value : Bytes) : (b.add key value).Only Harmless := by
  unfold add
  split
  · trivial
  · dsimp only
    split
    · exact flushDataBlock_harmless _
    · trivial

theorem finish_harmless (b : TableBuilder) : b.finish.Only Harmless := by
  unfold finish
  split
  · trivial
  · apply (flushDataBlock_harmless b).bind
    rintro ⟨s, b'⟩
    dsimp only
    split
    · trivial
    · apply (writeBlock_harmless _ _).bind
      rintro ⟨s', handle⟩
      dsimp only
      split
      · trivial
      · apply only_op (harmless_fwrite _ _)
        intro n
        split
        · trivial
        · exact only_op (harmless_fflush _) fun _ => trivial

theorem buildFrom_harmless (b : TableBuilder) (es : List Entry) : (b.buildFrom es).Only Harmless := by
  induction es generalizing b with
  | nil => exact finish_harmless b
  | cons e es ih =>
      apply (add_harmless b e.1 e.2).bind
      rintro ⟨s, b'⟩
      dsimp only
      split
      · trivial
      · exact ih b'

end TableBuilder

/-- A written table opens, or opening it is a fault. -/
theorem load_tableBytes_not_error {es : List Entry} (h : (tableBytes es).length < 2 ^ 63) {s : Status} :
    Table.load (RFile.ofBytes (tableBytes es)) ≠ .ok (.error s) := by
  have hlen := tableBytes_length es
  intro heq
  by_cases hindex : (indexContents (dataBlocks es)).length + kBlockTrailerSize ≤ maxStringSize
  · rw [load_tableBytes_eq h hindex] at heq
    split at heq <;> cases heq
  · have hread : readBlock (RFile.ofBytes (tableBytes es)) (footerOf (dataBlocks es)).index_handle =
        .error .lengthError := by
      apply readBlock_too_long
      · change (dataBytes (dataBlocks es)).length < 2 ^ 63
        omega
      · exact not_le.mp hindex
      · change (indexContents (dataBlocks es)).length + kBlockTrailerSize < 2 ^ 64
        omega
    rw [load_tableBytes_read h, hread] at heq
    cases heq

/-! ### An open database -/

/-- The database `db` rests on the files `l` of its directory; its log holds `b`. -/
structure Standing (dbname : Bytes) (fs : FileSystem) (l : List FileEntry) (b : Bytes) (db : DBImpl) :
    Prop where
  dir : Dir dbname fs l
  name_eq : db.dbname = dbname
  number : ∀ p ∈ l, p.1.number < db.next_file_number
  log_mem : (⟨db.log_number, .kLogFile⟩, b) ∈ l
  log_file : db.log_file = some (logFileName dbname db.log_number)
  log : ∃ w, db.log = some w ∧ w.file = logFileName dbname db.log_number ∧ w.InStep b.length
  tables : List.Forall₂ Opens (tableContents l).reverse db.tables

/-- The stages of a flush: the files `l` with the log `log` become those with the table `n`, which
holds `table`, and an empty log with the next number. -/
inductive Flushing (log : FileInfo) (n : ℕ) (table : Bytes) (l : List FileEntry) :
    List FileEntry → Prop
  | before : Flushing log n table l l
  | writing (x : Bytes) : Flushing log n table l (l ++ [(⟨n, .kTempFile⟩, x)])
  | renamed : table.length < 2 ^ 63 → Flushing log n table l (l ++ [(⟨n, .kTableFile⟩, table)])
  | unlogged : table.length < 2 ^ 63 →
      Flushing log n table l (without log l ++ [(⟨n, .kTableFile⟩, table)])
  | relogged : table.length < 2 ^ 63 → Flushing log n table l
      (without log l ++ [(⟨n, .kTableFile⟩, table), (⟨n + 1, .kLogFile⟩, [])])

/-- The files when a flush is over. -/
def flushed (log : FileInfo) (n : ℕ) (table : Bytes) (l : List FileEntry) : List FileEntry :=
  without log l ++ [(⟨n, .kTableFile⟩, table), (⟨n + 1, .kLogFile⟩, [])]

theorem without_append_of_ne {f : FileInfo} {p : FileEntry} (h : p.1 ≠ f) (l : List FileEntry) :
    without f (l ++ [p]) = without f l ++ [p] := by
  rw [without, List.filter_append, without]
  congr 1
  exact List.filter_cons_of_pos (decide_eq_true h)

theorem tableContents_append (l l' : List FileEntry) :
    tableContents (l ++ l') = tableContents l ++ tableContents l' := by
  rw [tableContents, ofType_append, List.map_append]
  rfl

theorem tableContents_without_log {n : ℕ} (l : List FileEntry) :
    tableContents (without ⟨n, .kLogFile⟩ l) = tableContents l := by
  rw [tableContents, ofType_without_ne (by simp)]
  rfl

theorem tableContents_setContent_log {n : ℕ} (b : Bytes) (l : List FileEntry) :
    tableContents (setContent ⟨n, .kLogFile⟩ b l) = tableContents l := by
  rw [tableContents, ofType_setContent_ne (by simp)]
  rfl

theorem mem_flushed {log : FileInfo} {n : ℕ} {table : Bytes} {l : List FileEntry} {p : FileEntry} :
    p ∈ flushed log n table l ↔ (p ∈ l ∧ p.1 ≠ log) ∨ p = (⟨n, .kTableFile⟩, table) ∨
      p = (⟨n + 1, .kLogFile⟩, []) := by
  rw [flushed, List.mem_append, without, List.mem_filter, List.mem_cons, List.mem_singleton,
    decide_eq_true_iff]

theorem tableContents_flushed (m n : ℕ) (table : Bytes) (l : List FileEntry) :
    tableContents (flushed ⟨m, .kLogFile⟩ n table l) = tableContents l ++ [table] := by
  rw [flushed, tableContents_append, tableContents_without_log]
  rfl

section

variable {room : ℕ → Bool} {E : Prop} {C : FileSystem → Prop} {fs : FileSystem} {dbname : Bytes}
  {l : List FileEntry} {b : Bytes} {db : DBImpl}

theorem Dir.not_mem_of_lt {f : FileInfo} (h : Dir dbname fs l) (hf : f.number < 2 ^ 64)
    (hnew : ∀ p ∈ l, p.1.number < f.number) : fileName dbname f ∉ fs := by
  intro hmem
  obtain ⟨c, hc⟩ := (h.mem_iff hf).mp hmem
  exact absurd (hnew _ hc) (lt_irrefl _)

/-- What a flush that is through has made of a database. -/
structure Flushed (dbname : Bytes) (fs : FileSystem) (l : List FileEntry) (db db' : DBImpl) : Prop where
  standing : Standing dbname fs
    (flushed ⟨db.log_number, .kLogFile⟩ db.next_file_number (tableBytes db.mem.table) l) [] db'
  mem : db'.mem = MemTable.empty
  last_seq : db'.last_seq = db.last_seq
  log_number : db'.log_number = db.next_file_number + 1
  next_file_number : db'.next_file_number = db.next_file_number + 2

/-- The last part of a flush. -/
theorem replaceLog_wpg {Q : Status × DBImpl → FileSystem → Prop} {n : ℕ} {table : Bytes}
    (hname : db.dbname = dbname) (hn : n + 1 < 2 ^ 64) (hnew : ∀ p ∈ l, p.1.number < n)
    (hlog : (⟨db.log_number, .kLogFile⟩, b) ∈ l)
    (hdir : Dir dbname fs (l ++ [(⟨n, .kTableFile⟩, table)])) (hlen : table.length < 2 ^ 63)
    (hC : ∀ fs' l', Flushing ⟨db.log_number, .kLogFile⟩ n table l l' → Dir dbname fs' l' → C fs')
    (hQ : ∀ fs', Dir dbname fs' (flushed ⟨db.log_number, .kLogFile⟩ n table l) →
      Q (Status.OK, { db with
        log_number := n + 1
        log_file := some (logFileName dbname (n + 1))
        log := some (LogWriter.new (logFileName dbname (n + 1)) 0)
        mem := MemTable.empty }) fs') :
    (db.replaceLog (logFileName dbname db.log_number) (n + 1)).wpg (disk room) (Safe false) E Q C fs := by
  have hC₀ : C fs := hC fs _ (.renamed hlen) hdir
  have hmem : fileName dbname ⟨db.log_number, .kLogFile⟩ ∈ fs := hdir.mem (List.mem_append_left _ hlog)
  have hlt : db.log_number < 2 ^ 64 := hdir.number_lt (List.mem_append_left _ hlog)
  have hdir₁ := hdir.erase (f := ⟨db.log_number, .kLogFile⟩) hlt
  rw [without_append_of_ne (by simp)] at hdir₁
  have hnew₁ : ∀ p ∈ without ⟨db.log_number, .kLogFile⟩ l ++ [(⟨n, .kTableFile⟩, table)],
      p.1.number < n + 1 := by
    intro p hp
    rcases List.mem_append.mp hp with hp | hp
    · exact (hnew p (List.mem_of_mem_filter hp)).trans (Nat.lt_succ_self n)
    · obtain rfl := List.mem_singleton.mp hp
      exact Nat.lt_succ_self n
  have hnotmem := hdir₁.not_mem_of_lt (f := ⟨n + 1, .kLogFile⟩) hn hnew₁
  have hdir₂ := hdir₁.insert_new (f := ⟨n + 1, .kLogFile⟩) hn hnew₁ []
  rw [List.append_assoc] at hdir₂
  unfold DBImpl.replaceLog
  dsimp only
  rw [hname, logFileName_eq, logFileName_eq]
  refine op_wpg hC₀ trivial rfl (fun _ h => h) ?_
  refine op_wpg hC₀ trivial rfl (fun _ h => h) ?_
  rw [if_neg (by simp)]
  refine op_wpg hC₀ trivial (if_pos hmem) (fun _ h => h) ?_
  have hC₁ := hC _ _ (.unlogged hlen) hdir₁
  rw [if_neg (by simp)]
  refine op_wpg hC₁ (Or.inr hnotmem) (congrArg (fun w => some (true, w)) (if_neg hnotmem)) (fun _ h => h) ?_
  rw [if_neg (by simp)]
  have hresult := hQ _ hdir₂
  rw [logFileName_eq, hname] at hresult
  exact Prog.wpg_ret (hC _ _ (.relogged hlen) hdir₂) hresult

/-- **A flush.** -/
theorem flushMemTable_wpg {Q : Status × DBImpl → FileSystem → Prop}
    (hst : Standing dbname fs l b db) (hn : db.next_file_number + 2 < 2 ^ 64)
    (hC : ∀ fs' l', Flushing ⟨db.log_number, .kLogFile⟩ db.next_file_number (tableBytes db.mem.table) l l' →
      Dir dbname fs' l' → C fs')
    (hroom : ∀ n, room n = true → n < 2 ^ 63)
    (hfault : ∀ f, (tableBytes db.mem.table).length < 2 ^ 63 →
      Table.load (RFile.ofBytes (tableBytes db.mem.table)) = .error f → E)
    (hempty : db.mem.table = [] → Q (Status.OK, db) fs)
    (hok : ∀ fs' db', db.mem.table ≠ [] → (tableBytes db.mem.table).length < 2 ^ 63 →
      Flushed dbname fs' l db db' → Q (Status.OK, db') fs') :
    (db.flushMemTable).wpg (disk room) (Safe false) E Q C fs := by
  have hC₀ : C fs := hC fs l .before hst.dir
  have hnew := hst.number
  have hlt : db.next_file_number < 2 ^ 64 := by omega
  have hmod : (db.next_file_number + 1) % 2 ^ 64 = db.next_file_number + 1 := Nat.mod_eq_of_lt (by omega)
  have hmod' : (db.next_file_number + 1 + 1) % 2 ^ 64 = db.next_file_number + 2 :=
    Nat.mod_eq_of_lt (by omega)
  unfold DBImpl.flushMemTable
  by_cases hmem : db.mem.table = []
  · rw [if_pos hmem]
    exact Prog.wpg_ret hC₀ (hempty hmem)
  · rw [if_neg hmem]
    -- the temporary file is written, with a number above all others
    have htmp := hst.dir.not_mem_of_lt (f := ⟨db.next_file_number, .kTempFile⟩) hlt hnew
    have hdirTmp : ∀ x, Dir dbname (fs.insert (fileName dbname ⟨db.next_file_number, .kTempFile⟩) x)
        (l ++ [(⟨db.next_file_number, .kTempFile⟩, x)]) := fun x => hst.dir.insert_new hlt hnew x
    have hCtmp : ∀ x, C (fs.insert (fileName dbname ⟨db.next_file_number, .kTempFile⟩) x) :=
      fun x => hC _ _ (.writing x) (hdirTmp x)
    simp only [hst.name_eq, tempFileName_eq, tableFileName_eq, hmod, hmod']
    refine op_wpg hC₀ htmp rfl (fun _ h => h) ?_
    rw [if_neg (by simp)]
    apply Prog.wpg_bind
    refine wpg_of_harmless (TableBuilder.buildFrom_new_wp (fun x _ => hCtmp x) fun builder hfile _ hsize => ?_)
      (TableBuilder.buildFrom_harmless _ _)
    refine op_wpg (hCtmp _) trivial rfl (fun _ h => h) ?_
    refine op_wpg (hCtmp _) trivial rfl (fun _ h => h) ?_
    simp only [Status.ok_OK, Bool.not_true, Bool.false_eq_true, if_false]
    -- it becomes the table
    have hdirTable := (hdirTmp (tableBytes db.mem.table)).rename hnew .kTableFile
    have hexists : fileName dbname ⟨db.next_file_number, .kTempFile⟩ ∈
        fs.insert (fileName dbname ⟨db.next_file_number, .kTempFile⟩) (tableBytes db.mem.table) :=
      (AList.mem_insert _).mpr (Or.inl rfl)
    have htable : fileName dbname ⟨db.next_file_number, .kTableFile⟩ ∉
        fs.insert (fileName dbname ⟨db.next_file_number, .kTempFile⟩) (tableBytes db.mem.table) := by
      intro hmem'
      obtain ⟨c, hc⟩ := ((hdirTmp (tableBytes db.mem.table)).mem_iff
        (f := ⟨db.next_file_number, .kTableFile⟩) hlt).mp hmem'
      rcases List.mem_append.mp hc with hc | hc
      · exact absurd (hnew _ hc) (lt_irrefl _)
      · simp at hc
    have hlen := hroom _ hsize
    have hCtable := hC _ _ (.renamed hlen) hdirTable
    have hin := hdirTable.mem (List.mem_append_right _ (List.mem_singleton.mpr rfl))
    have hget := hdirTable.get_eq (List.mem_append_right _ (List.mem_singleton.mpr rfl))
    refine op_wpg (hCtmp _) htable (if_pos hexists) (fun _ h => h) ?_
    simp only [Bool.not_true, Bool.false_eq_true, if_false]
    apply Prog.wpg_bind
    refine openTable_wpg hin hCtable ?_ ?_ ?_
    · intro f hf
      rw [hget] at hf
      exact hfault f hlen hf
    · intro s hs
      rw [hget] at hs
      exact absurd hs (load_tableBytes_not_error hlen)
    · intro t ht
      rw [hget] at ht
      rw [hst.log_file]
      -- the new log takes the place of the old one
      refine replaceLog_wpg rfl (by omega) hnew hst.log_mem hdirTable hlen hC ?_
      intro fs' hdir'
      refine hok fs' _ hmem hlen ⟨⟨hdir', rfl, ?_, ?_, rfl, ⟨_, rfl, rfl, ?_⟩, ?_⟩, rfl, rfl, rfl, rfl⟩
      · intro p hp
        rcases mem_flushed.mp hp with ⟨hp, -⟩ | rfl | rfl
        · exact (hnew p hp).trans (Nat.lt_add_of_pos_right Nat.two_pos)
        · exact Nat.lt_add_of_pos_right Nat.two_pos
        · exact Nat.lt_succ_self _
      · exact mem_flushed.mpr (Or.inr (Or.inr rfl))
      · exact LogWriter.inStep_new _ 0
      · rw [tableContents_flushed, List.reverse_append]
        exact .cons ht hst.tables

/-- A batch was logged and its operations were added to the memtable. -/
structure Logged (dbname : Bytes) (fs : FileSystem) (l : List FileEntry) (b : Bytes) (batch : WriteBatch)
    (db db' : DBImpl) : Prop where
  standing : Standing dbname fs
    (setContent ⟨db.log_number, .kLogFile⟩ (b ++ recordBytes b.length batch.rep) l)
    (b ++ recordBytes b.length batch.rep) db'
  mem : db'.mem = db.mem.insertAll batch.iterate.2
  log_number : db'.log_number = db.log_number
  next_file_number : db'.next_file_number = db.next_file_number

/-- `last_seq_` after a batch. -/
def seqBehind (db : DBImpl) (batch : WriteBatch) : ℕ :=
  (((db.last_seq : ℤ) + batch.count) % 2 ^ 64).toNat

theorem exists_of_mem_setContent {f : FileInfo} {c : Bytes} {l : List FileEntry} {p : FileEntry}
    (hp : p ∈ setContent f c l) : ∃ q ∈ l, q.1 = p.1 := by
  obtain ⟨q, hq, rfl⟩ := List.mem_map.mp hp
  refine ⟨q, hq, ?_⟩
  split_ifs with h
  · exact h
  · rfl

theorem mem_setContent_self {f : FileInfo} {c c' : Bytes} {l : List FileEntry} (h : (f, c) ∈ l) :
    (f, c') ∈ setContent f c' l :=
  List.mem_map.mpr ⟨(f, c), h, if_pos rfl⟩

theorem Dir.setContent_self {f : FileInfo} {c : Bytes} (h : Dir dbname fs l) (hf : (f, c) ∈ l) :
    setContent f c l = l := by
  conv_rhs => rw [← List.map_id l]
  apply List.map_congr_left
  rintro ⟨g, c'⟩ hp
  dsimp only [id]
  split_ifs with heq
  · obtain rfl : g = f := heq
    rw [(h.get_eq hf).symm.trans (h.get_eq hp)]
  · rfl

/-- An open database whose log has grown. -/
theorem Standing.grow (hst : Standing dbname fs l b db) {fs' : FileSystem} {c : Bytes} {w : LogWriter}
    (hdir : Dir dbname fs' (setContent ⟨db.log_number, .kLogFile⟩ c l))
    (hfile : w.file = logFileName dbname db.log_number) (hw : w.InStep c.length) (mem : MemTable)
    (seq : ℕ) :
    Standing dbname fs' (setContent ⟨db.log_number, .kLogFile⟩ c l) c
      { db with log := some w, mem := mem, last_seq := seq } := by
  refine ⟨hdir, hst.name_eq, ?_, mem_setContent_self hst.log_mem, hst.log_file, ⟨w, rfl, hfile, hw⟩, ?_⟩
  · intro p hp
    obtain ⟨q, hq, heq⟩ := exists_of_mem_setContent hp
    rw [← heq]
    exact hst.number q hq
  · rw [tableContents_setContent_log]
    exact hst.tables

/-- `Write` up to the flush it may end in. -/
def DBImpl.logAndApply (db : DBImpl) (batch : WriteBatch) : FileProg (Status × DBImpl) :=
  let batch := batch.set_sequence ((db.last_seq + 1) % 2 ^ 64)
  match db.log with
  | none => .fault .nullDeref
  | some log =>
      log.addRecord batch.rep >>= fun (s, log) =>
        let db := { db with log := some log }
        if !s.ok then .ret (s, db)
        else
          let db := { db with mem := db.mem.insertAll batch.iterate.2 }
          if !batch.iterate.1.ok then .ret (batch.iterate.1, db)
          else .ret (Status.OK, { db with last_seq := seqBehind db batch })

theorem DBImpl.write_eq (db : DBImpl) (batch : WriteBatch) :
    db.write batch = (db.logAndApply batch >>= fun r =>
      if r.1.ok = true ∧ kMaxMemTableBytes ≤ r.2.mem.approximateMemoryUsage then r.2.flushMemTable
      else .ret r) := by
  unfold write logAndApply
  dsimp only
  cases db.log with
  | none => rfl
  | some log =>
      dsimp only
      generalize batch.set_sequence ((db.last_seq + 1) % 2 ^ 64) = batch'
      rw [Prog.bind_assoc]
      congr 1
      funext ⟨s, w⟩
      dsimp only
      cases hs : s.ok with
      | false => simp [hs]
      | true =>
          cases hiter : batch'.iterate.1.ok with
          | false => simp [hiter]
          | true => simp [seqBehind]

/-- A batch with the next sequence number is logged and applied. -/
theorem logAndApply_wpg {Q : Status × DBImpl → FileSystem → Prop} {batch batch' : WriteBatch}
    (hbatch : batch' = batch.set_sequence ((db.last_seq + 1) % 2 ^ 64)) (hst : Standing dbname fs l b db)
    (hlog : ∀ fs' x, x <+: recordBytes b.length batch'.rep →
      Dir dbname fs' (setContent ⟨db.log_number, .kLogFile⟩ (b ++ x) l) → C fs')
    (hbad : ∀ fs' db', batch'.iterate.1.ok = false → Logged dbname fs' l b batch' db db' →
      db'.last_seq = db.last_seq → Q (batch'.iterate.1, db') fs')
    (hok : ∀ fs' db', batch'.iterate.1.ok = true → Logged dbname fs' l b batch' db db' →
      db'.last_seq = seqBehind db batch' → Q (Status.OK, db') fs') :
    (db.logAndApply batch).wpg (disk room) (Safe false) E Q C fs := by
  obtain ⟨w, hw, hfile, hstep⟩ := hst.log
  have hname := logFileName_eq dbname db.log_number
  have hget : fs.get w.file = b := by
    rw [hfile, hname]
    exact hst.dir.get_eq hst.log_mem
  have hset : ∀ x, Dir dbname (fs.append w.file x) (setContent ⟨db.log_number, .kLogFile⟩ (b ++ x) l) := by
    intro x
    rw [FileSystem.append, hget, hfile, hname]
    exact hst.dir.set hst.log_mem (b ++ x)
  have hC₀ : C fs := by
    apply hlog fs [] List.nil_prefix
    rw [List.append_nil, hst.dir.setContent_self hst.log_mem]
    exact hst.dir
  unfold DBImpl.logAndApply
  rw [hw, ← hbatch]
  dsimp only
  apply Prog.wpg_bind
  refine wpg_of_harmless (LogWriter.addRecord_wp (hget.symm ▸ hstep) hC₀ ?_ ?_)
    (LogWriter.addRecord_harmless w _)
  · rw [hget]
    exact fun x hx => hlog _ x hx (hset x)
  · rw [hget]
    intro w' hw' hstep'
    rw [← List.length_append] at hstep'
    have hdir := hset (recordBytes b.length batch'.rep)
    have hC₁ := hlog _ _ (List.prefix_refl _) hdir
    have hgrow := hst.grow hdir (hw'.trans hfile) hstep'
    simp only [Status.ok_OK, Bool.not_true, Bool.false_eq_true, if_false]
    by_cases hiter : batch'.iterate.1.ok = true
    · rw [hiter]
      exact Prog.wpg_ret hC₁ (hok _ _ hiter ⟨hgrow _ _, rfl, rfl, rfl⟩ rfl)
    · rw [Bool.not_eq_true] at hiter
      rw [hiter]
      exact Prog.wpg_ret hC₁ (hbad _ _ hiter ⟨hgrow _ _, rfl, rfl, rfl⟩ rfl)

/-- **A write**, of the batch with the next sequence number, and the flush it may end in. -/
theorem write_wpg {Q : Status × DBImpl → FileSystem → Prop} {batch batch' : WriteBatch}
    (hbatch : batch' = batch.set_sequence ((db.last_seq + 1) % 2 ^ 64))
    (hst : Standing dbname fs l b db) (hn : db.next_file_number + 2 < 2 ^ 64)
    (hlog : ∀ fs' x, x <+: recordBytes b.length batch'.rep →
      Dir dbname fs' (setContent ⟨db.log_number, .kLogFile⟩ (b ++ x) l) → C fs')
    (hflush : ∀ fs' l', Flushing ⟨db.log_number, .kLogFile⟩ db.next_file_number
        (tableBytes (db.mem.insertAll batch'.iterate.2).table)
        (setContent ⟨db.log_number, .kLogFile⟩ (b ++ recordBytes b.length batch'.rep) l) l' →
      Dir dbname fs' l' → C fs')
    (hroom : ∀ n, room n = true → n < 2 ^ 63)
    (hfault : ∀ f, (tableBytes (db.mem.insertAll batch'.iterate.2).table).length < 2 ^ 63 →
      Table.load (RFile.ofBytes (tableBytes (db.mem.insertAll batch'.iterate.2).table)) = .error f → E)
    (hbad : ∀ fs' db', batch'.iterate.1.ok = false → Logged dbname fs' l b batch' db db' →
      db'.last_seq = db.last_seq → Q (batch'.iterate.1, db') fs')
    (hok : ∀ fs' db', batch'.iterate.1.ok = true → Logged dbname fs' l b batch' db db' →
      db'.last_seq = seqBehind db batch' → db'.mem.approximateMemoryUsage < kMaxMemTableBytes →
      Q (Status.OK, db') fs')
    (hflushed : ∀ fs₁ db₁ fs' db', batch'.iterate.1.ok = true → Logged dbname fs₁ l b batch' db db₁ →
      db₁.last_seq = seqBehind db batch' → kMaxMemTableBytes ≤ db₁.mem.approximateMemoryUsage →
      (tableBytes db₁.mem.table).length < 2 ^ 63 →
      Flushed dbname fs' (setContent ⟨db.log_number, .kLogFile⟩ (b ++ recordBytes b.length batch'.rep) l)
        db₁ db' → Q (Status.OK, db') fs') :
    (db.write batch).wpg (disk room) (Safe false) E Q C fs := by
  rw [DBImpl.write_eq]
  apply Prog.wpg_bind
  refine logAndApply_wpg hbatch hst hlog ?_ ?_
  · intro fs' db' hiter hlogged hseq
    rw [if_neg (by simp [hiter])]
    exact Prog.wpg_ret (hlog _ _ (List.prefix_refl _) hlogged.standing.dir) (hbad fs' db' hiter hlogged hseq)
  · intro fs' db' hiter hlogged hseq
    have hmem := hlogged.mem
    by_cases hfull : kMaxMemTableBytes ≤ db'.mem.approximateMemoryUsage
    · rw [if_pos ⟨rfl, hfull⟩]
      rw [← hmem] at hfault
      refine flushMemTable_wpg hlogged.standing (by rw [hlogged.next_file_number]; exact hn) ?_ hroom hfault
        ?_ ?_
      · intro fs'' l' hf hdir'
        rw [hlogged.log_number, hlogged.next_file_number, hmem] at hf
        exact hflush fs'' l' hf hdir'
      · intro hempty
        rw [MemTable.approximateMemoryUsage_eq, hempty] at hfull
        exact absurd hfull (by decide)
      · exact fun fs'' db'' _ => hflushed fs' db' fs'' db'' hiter hlogged hseq hfull
    · rw [if_neg fun h => hfull h.2]
      exact Prog.wpg_ret (hlog _ _ (List.prefix_refl _) hlogged.standing.dir)
        (hok fs' db' hiter hlogged hseq (not_le.mp hfull))

end

end MiniLevelDB
