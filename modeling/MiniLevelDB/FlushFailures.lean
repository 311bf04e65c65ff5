import MiniLevelDB.FlakyDisk
import MiniLevelDB.Recovery

/-! # Flushes that fail

`FlushMemTable` on a disk on which any call may fail.  It has seven exits with an error, and `FlushEnds`
says of each which call has failed, what the members are and which files the directory holds
(`flushMemTable_after`). -/

namespace MiniLevelDB

open Effect Posix

namespace DBImpl

/-- `tmp_name` of a flush. -/
def tmp_name (db : DBImpl) : Bytes := tempFileName db.dbname db.next_file_number

/-- `table_name` of a flush. -/
def table_name (db : DBImpl) : Bytes := tableFileName db.dbname db.next_file_number

/-- `old_log_name` of a flush. -/
def old_log_name (db : DBImpl) : Bytes := logFileName db.dbname db.log_number

/-- `new_log_name` of a flush. -/
def new_log_name (db : DBImpl) : Bytes := logFileName db.dbname (db.next_file_number + 1)

/-- The database when a flush has taken its two file numbers. -/
def counted (db : DBImpl) : DBImpl := { db with next_file_number := db.next_file_number + 2 }

/-- What the flush has got out of the table when it renames it. -/
def tableOut (db : DBImpl) (g : FileOp → ℕ → Option ℕ) : Bytes :=
  written (g (.fflush db.tmp_name) 0) (tableBytes db.mem.table)

/-- The table gets out whole where the `fflush` of the builder does not fail. -/
theorem tableOut_of_flushes {db : DBImpl} {g : FileOp → ℕ → Option ℕ} (h : g (.fflush db.tmp_name) 0 = none) :
    db.tableOut g = tableBytes db.mem.table := by
  rw [tableOut, h, written]

end DBImpl

/-- The exits of a flush of `db`, in a directory with the files `l` and with the outcomes `g`: the status,
the database and the files. -/
inductive FlushEnds (g : FileOp → ℕ → Option ℕ) (l : List FileEntry) (db : DBImpl) :
    Status → DBImpl → List FileEntry → Prop
  | notCreated {s : Status} : s.ok = false → Fails g (.fopen db.tmp_name .wb) → FlushEnds g l db s db.counted l
  | notBuilt {s : Status} {x : Bytes} {o : FileOp} : s.ok = false → Checked db.tmp_name o → Fails g o →
      FlushEnds g l db s db.counted (l ++ [(⟨db.next_file_number, .kTempFile⟩, x)])
  | notRenamed {s : Status} {x : Bytes} : s.ok = false → Fails g (.rename db.tmp_name db.table_name) →
      FlushEnds g l db s db.counted (l ++ [(⟨db.next_file_number, .kTempFile⟩, x)])
  | notOpened {s : Status} : s.ok = false → (tableBytes db.mem.table).length < 2 ^ 63 →
      (Fails g (.fopen db.table_name .rb) ∨ Fails g (.snapshot db.table_name) ∨
        Table.load (RFile.ofBytes (db.tableOut g)) = .ok (.error s)) →
      FlushEnds g l db s db.counted (l ++ [(⟨db.next_file_number, .kTableFile⟩, db.tableOut g)])
  | notClosed {s : Status} {t : Table} : s.ok = false → (tableBytes db.mem.table).length < 2 ^ 63 →
      Fails g (.fclose db.old_log_name) →
      FlushEnds g l db s { db.counted with tables := t :: db.tables, log_file := none, log := none }
        (l ++ [(⟨db.next_file_number, .kTableFile⟩, db.tableOut g)])
  | notRemoved {s : Status} {t : Table} : s.ok = false → (tableBytes db.mem.table).length < 2 ^ 63 →
      Fails g (.remove db.old_log_name) →
      FlushEnds g l db s { db.counted with tables := t :: db.tables, log_file := none, log := none }
        (l ++ [(⟨db.next_file_number, .kTableFile⟩, db.tableOut g)])
  | notReplaced {s : Status} {t : Table} : s.ok = false → (tableBytes db.mem.table).length < 2 ^ 63 →
      Fails g (.fopen db.new_log_name .ab) →
      FlushEnds g l db s
        { db.counted with
          tables := t :: db.tables
          log_file := none
          log := none
          log_number := db.next_file_number + 1 }
        (without ⟨db.log_number, .kLogFile⟩ l ++ [(⟨db.next_file_number, .kTableFile⟩, db.tableOut g)])
  | flushed {t : Table} : Table.load (RFile.ofBytes (db.tableOut g)) = .ok (.ok t) →
      Succeeds g (.fclose db.old_log_name) →
      FlushEnds g l db Status.OK
        { db.counted with
          tables := t :: db.tables
          log_file := some db.new_log_name
          log := some (LogWriter.new db.new_log_name 0)
          log_number := db.next_file_number + 1
          mem := MemTable.empty }
        (flushed ⟨db.log_number, .kLogFile⟩ db.next_file_number (db.tableOut g) l)

section

variable {dbname : Bytes} {fs : FileSystem} {l : List FileEntry} {b : Bytes} {db : DBImpl}
  {g : FileOp → ℕ → Option ℕ}

/-- The outcome of a flush as a postcondition. -/
def FlushDone (dbname : Bytes) (g : FileOp → ℕ → Option ℕ) (l : List FileEntry) (db : DBImpl)
    (r : Status × DBImpl) (d : FlakyDisk) : Prop :=
  ∃ l', Dir dbname d.files l' ∧ FlushEnds g l db r.1 r.2 l'

/-- The last part of a flush. -/
theorem replaceLog_after {E : Fault → Prop} {d : FlakyDisk} {t : Table} (hst : Standing dbname fs l b db)
    (hn : db.next_file_number + 2 < 2 ^ 64) (hlen : (tableBytes db.mem.table).length < 2 ^ 63)
    (hload : Table.load (RFile.ofBytes (db.tableOut g)) = .ok (.ok t)) {fs₁ : FileSystem}
    (hdir : Dir dbname fs₁ (l ++ [(⟨db.next_file_number, .kTableFile⟩, db.tableOut g)]))
    (hquiet : Quiet fs₁ g d) :
    ({ db.counted with tables := t :: db.tables }.replaceLog db.old_log_name
      (db.next_file_number + 1)).After flaky E (FlushDone dbname g l db) d := by
  obtain rfl := hst.name_eq
  have hold : db.old_log_name = fileName db.dbname ⟨db.log_number, .kLogFile⟩ :=
    logFileName_eq db.dbname db.log_number
  have hnew : db.new_log_name = fileName db.dbname ⟨db.next_file_number + 1, .kLogFile⟩ :=
    logFileName_eq db.dbname (db.next_file_number + 1)
  have hlog := List.mem_append_left [(⟨db.next_file_number, .kTableFile⟩, db.tableOut g)] hst.log_mem
  have hmem : db.old_log_name ∈ fs₁ := by
    rw [hold]
    exact hdir.mem hlog
  have hdir₁ := hdir.erase (f := ⟨db.log_number, .kLogFile⟩) (hdir.number_lt hlog)
  rw [without_append_of_ne (by simp), ← hold] at hdir₁
  have hnumber₁ : ∀ p ∈ without ⟨db.log_number, .kLogFile⟩ l ++
      [(⟨db.next_file_number, .kTableFile⟩, db.tableOut g)], p.1.number < db.next_file_number + 1 := by
    intro p hp
    rcases List.mem_append.mp hp with hp | hp
    · exact (hst.number p (List.mem_of_mem_filter hp)).trans (Nat.lt_succ_self _)
    · obtain rfl := List.mem_singleton.mp hp
      exact Nat.lt_succ_self _
  have hlt : db.next_file_number + 1 < 2 ^ 64 := by omega
  have hnotmem := hdir₁.not_mem_of_lt (f := ⟨db.next_file_number + 1, .kLogFile⟩) hlt hnumber₁
  have hdir₂ := hdir₁.insert_new (f := ⟨db.next_file_number + 1, .kLogFile⟩) hlt hnumber₁ []
  rw [List.append_assoc] at hdir₂
  rw [← hnew] at hnotmem hdir₂
  unfold DBImpl.replaceLog
  refine quiet_fflush hquiet fun d₁ h₁ => ?_
  refine quiet_fclose h₁ ?_ ?_
  · intro d₂ h₂ hcloses
    rw [if_neg (by simp)]
    refine quiet_call h₂ (fun _ _ => rfl) (fun _ => rfl) (if_pos hmem) ?_ ?_
    · intro d₃ h₃ _ _
      rw [if_neg (by simp)]
      refine quiet_call h₃ (fun _ _ => rfl) (fun _ => rfl)
        (congrArg (fun fs => some (true, fs)) (if_neg hnotmem)) ?_ ?_
      · intro d₄ h₄ _ _
        rw [if_neg (by simp)]
        refine Prog.after_ret ⟨_, ?_, .flushed hload hcloses⟩
        rw [h₄.files]
        exact hdir₂
      · intro d₄ h₄ hfails
        rw [if_pos (by simp)]
        refine Prog.after_ret ⟨_, ?_, .notReplaced rfl hlen hfails⟩
        rw [h₄.files]
        exact hdir₁
    · intro d₃ h₃ hfails
      rw [if_pos (by simp)]
      refine Prog.after_ret ⟨_, ?_, .notRemoved rfl hlen hfails⟩
      rw [h₃.files]
      exact hdir
  · intro d₂ h₂ hfails
    rw [if_pos (by simp)]
    refine Prog.after_ret ⟨_, ?_, .notClosed rfl hlen hfails⟩
    rw [h₂.files]
    exact hdir

/-- A flush of an empty memtable does not fail. -/
theorem flushMemTable_error_ne_nil {d d' : FlakyDisk} {s : Status} {db' : DBImpl}
    (h : db.flushMemTable.run flaky d = .done (s, db') d') (hs : s.ok = false) : db.mem.table ≠ [] := by
  intro hempty
  unfold DBImpl.flushMemTable at h
  rw [if_pos hempty] at h
  cases h
  cases hs

/-- **A flush** on a disk on which any call may fail. -/
theorem flushMemTable_after (hst : Standing dbname fs l b db)
    (hn : db.next_file_number + 2 < 2 ^ 64) (hmem : db.mem.table ≠ []) :
    db.flushMemTable.After flaky (fun f => Table.load (RFile.ofBytes (db.tableOut g)) = .error f)
      (FlushDone dbname g l db) ⟨fs, fun _ => [], g⟩ := by
  obtain rfl := hst.name_eq
  have hlt : db.next_file_number < 2 ^ 64 := by omega
  have hmod : (db.next_file_number + 1) % 2 ^ 64 = db.next_file_number + 1 := Nat.mod_eq_of_lt (by omega)
  have hmod' : (db.next_file_number + 1 + 1) % 2 ^ 64 = db.next_file_number + 2 :=
    Nat.mod_eq_of_lt (by omega)
  have htmp : db.tmp_name = fileName db.dbname ⟨db.next_file_number, .kTempFile⟩ :=
    tempFileName_eq db.dbname db.next_file_number
  have htable : db.table_name = fileName db.dbname ⟨db.next_file_number, .kTableFile⟩ :=
    tableFileName_eq db.dbname db.next_file_number
  unfold DBImpl.flushMemTable
  rw [if_neg hmem]
  have htmp_name : tempFileName db.dbname db.next_file_number = db.tmp_name := rfl
  have htable_name : tableFileName db.dbname db.next_file_number = db.table_name := rfl
  simp only [hmod, hmod', htmp_name, htable_name]
  refine quiet_call (Quiet.start fs g) (fun _ _ => rfl) (fun _ => rfl) rfl ?_ ?_
  · intro d₁ h₁ houtcome _
    rw [if_neg (by simp)]
    have hfiles : d₁.files = fs.insert (fileName db.dbname ⟨db.next_file_number, .kTempFile⟩) [] := by
      rw [h₁.files, htmp]
    have hbeside : Beside db.dbname l ⟨db.next_file_number, .kTempFile⟩ g d₁ := by
      refine ⟨?_, fun s _ => by rw [h₁.buffer], h₁.among⟩
      rw [hfiles, FileSystem.get_insert]
      exact hst.dir.insert_new hlt hst.number []
    have hflushes : d₁.outcome (.fflush db.tmp_name) = g (.fflush db.tmp_name) := houtcome _ (by simp)
    rw [htmp]
    have hbuild := @build_after _ _ _ g d₁ db.mem.table
      (fun f => Table.load (RFile.ofBytes (db.tableOut g)) = .error f) hbeside hst.number
      (by rw [hfiles, FileSystem.get_insert]) (by rw [h₁.buffer])
    refine Prog.after_bind (hbuild.mono (fun _ hf => hf) ?_)
    rintro ⟨s, builder⟩ d₂ ⟨hfile, h₂, hends⟩
    refine close_after h₂ hst.number hfile fun d₃ h₃ hempty hsame => ?_
    rcases hends with ⟨hs, o, ho, j, n, hout⟩ | ⟨hs, hlen, hnone, hget⟩
    · rw [if_pos (by simpa using hs)]
      obtain ⟨i, hi⟩ := h₁.among o j
      rw [← htmp] at ho
      exact Prog.after_ret ⟨_, h₃.dir, .notBuilt hs ho ⟨i, n, hi.symm.trans hout⟩⟩
    · obtain rfl : s = Status.OK := hs
      rw [if_neg (by simp), ← htmp]
      rw [← hsame hnone, ← htmp, hflushes] at hget
      -- it becomes the table
      have hin := h₃.dir.mem (List.mem_append_right _ (List.mem_singleton.mpr rfl))
      have hdir := h₃.dir.rename hst.number .kTableFile
      rw [← htmp] at hin hdir
      rw [← htable, hget] at hdir
      have hquiet : Quiet d₃.files g d₃ := ⟨rfl, hempty, h₃.among⟩
      refine quiet_call hquiet (fun _ _ => rfl) (fun _ => rfl) (if_pos hin) ?_ ?_
      · intro d₄ h₄ _ _
        rw [if_neg (by simp)]
        have htab := hdir.mem (List.mem_append_right _ (List.mem_singleton.mpr rfl))
        have hload := hdir.get_eq (List.mem_append_right _ (List.mem_singleton.mpr rfl))
        rw [← htable] at htab hload
        rw [hget] at h₄
        refine openTable_after h₄ htab ?_ ?_ ?_ ?_
        · intro s d₅ hs₅ h₅ hfails
          refine Prog.after_ret ⟨_, ?_, .notOpened hs₅ hlen (hfails.imp_right Or.inl)⟩
          rw [h₅.files]
          exact hdir
        · intro f hf
          rw [hload] at hf
          exact hf
        · intro s d₅ h₅ herror
          rw [hload] at herror
          refine Prog.after_ret ⟨_, ?_, .notOpened (Table.load_error herror) hlen (Or.inr (Or.inr herror))⟩
          rw [h₅.files]
          exact hdir
        · intro t d₅ h₅ hok
          rw [hload] at hok
          dsimp only
          rw [hst.log_file]
          exact replaceLog_after hst hn hlen hok hdir h₅
      · intro d₄ h₄ hfails
        rw [if_pos (by simp)]
        have hsame₄ := h₃.dir
        rw [← h₄.files] at hsame₄
        exact Prog.after_ret ⟨_, hsame₄, .notRenamed rfl hfails⟩
  · intro d₁ h₁ hfails
    rw [if_pos (by simp)]
    refine Prog.after_ret ⟨l, ?_, .notCreated rfl hfails⟩
    rw [h₁.files]
    exact hst.dir

/-- A flush that cannot create the temporary table changes no file. -/
theorem flushMemTable_notCreated (hmem : db.mem.table ≠ []) :
    ∃ s db' d', db.flushMemTable.run flaky ⟨fs, fun _ => [],
      fun o _ => if o = .fopen db.tmp_name .wb then some 0 else none⟩ = .done (s, db') d' ∧
      s.ok = false ∧ d'.files = fs := by
  unfold DBImpl.flushMemTable
  rw [if_neg hmem]
  dsimp only
  have hfails := flaky_ok (d := ⟨fs, fun _ => [],
    fun o _ => if o = .fopen db.tmp_name .wb then some 0 else none⟩) (o := .fopen db.tmp_name .wb) (if_pos rfl)
  exact ⟨_, _, _, Eq.trans (Prog.run_bind_done _ (Prog.run_call _ hfails)) rfl, rfl, rfl⟩

/-- A flush has an end where the temporary table is created and written without a failure. -/
theorem flushMemTable_ends (hst : Standing dbname fs l b db) (hn : db.next_file_number + 2 < 2 ^ 64)
    (hmem : db.mem.table ≠ []) (hlen : (tableBytes db.mem.table).length < 2 ^ 63)
    (hcreated : g (.fopen db.tmp_name .wb) 0 = none)
    (hwritten : ∀ o, Checked db.tmp_name o → ∀ j, g o j = none)
    (hload : ∀ f, Table.load (RFile.ofBytes (db.tableOut g)) ≠ .error f) :
    ∃ r d', db.flushMemTable.run flaky ⟨fs, fun _ => [], g⟩ = .done r d' ∧
      FlushDone dbname g l db r d' := by
  have hafter : db.flushMemTable.After flaky (fun _ => False) (FlushDone dbname g l db) ⟨fs, fun _ => [], g⟩ :=
    (flushMemTable_after hst hn hmem).mono hload fun _ _ hdone => hdone
  obtain ⟨e, k, hk, heq⟩ := DBImpl.flushMemTable_eq hmem
  have htmp_name : tempFileName db.dbname db.next_file_number = db.tmp_name := rfl
  rw [heq, htmp_name] at hafter ⊢
  have hopen : (fopen db.tmp_name .wb).run flaky ⟨fs, fun _ => [], g⟩ = .done true
      { FlakyDisk.pass ⟨fs, fun _ => [], g⟩ (.fopen db.tmp_name .wb) with files := fs.insert db.tmp_name [] } := by
    have hstep : flaky.ok ⟨fs, fun _ => [], g⟩ (.fopen db.tmp_name .wb) = _ := flaky_ok hcreated
    exact Prog.run_call _ hstep
  have hafter := hafter.of_bind_run hopen
  rw [Prog.run_bind_done _ hopen]
  rw [if_neg (by simp)] at hafter ⊢
  -- the builder does what it does on the disk where nothing fails
  have hpending : Pending db.tmp_name False
      (FlakyDisk.outcome (FlakyDisk.pass ⟨fs, fun _ => [], g⟩ (.fopen db.tmp_name .wb)) (.fflush db.tmp_name))
      { FlakyDisk.pass ⟨fs, fun _ => [], g⟩ (.fopen db.tmp_name .wb) with files := fs.insert db.tmp_name [] }
      (AList.insert db.tmp_name [] ∅) := by
    refine ⟨FileSystem.get_insert _ _ _, by rw [FileSystem.get_insert]; rfl, rfl, ?_⟩
    intro o ho j n hn
    obtain ⟨i, hi⟩ := FlakyDisk.exists_outcome_of_pass hn
    have hnone := (hwritten o ho i).symm.trans hi
    cases hnone
  obtain ⟨builder, hdisk⟩ := @TableBuilder.buildFrom_run db.tmp_name ∅ _ hlen
  have hfile : (TableBuilder.new db.tmp_name).file = db.tmp_name := rfl
  rcases TableBuilder.buildFrom_follows hpending hfile db.mem.table with ⟨hfailure, -⟩ | hrel
  · exact hfailure.elim
  · rw [hdisk] at hrel
    generalize hbuild : ((TableBuilder.new db.tmp_name).buildFrom db.mem.table).run flaky _ = x at hrel
    cases hrel with
    | done _ =>
        rw [Prog.run_bind_done _ hbuild]
        exact (hafter.of_bind_run hbuild).exists_done flaky_ok_isSome (hk _)

end

end MiniLevelDB
