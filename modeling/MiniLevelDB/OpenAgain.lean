import MiniLevelDB.FlushRecovery
import MiniLevelDB.LastSeq
import MiniLevelDB.Lib.Failure

/-! # Opening again

`Open` repairs a directory while it reads it: it removes temporary files, cuts the logs and may create one.
Whatever bytes the files hold, it does not matter how often it is cut off or how often it is through: the next
`Open` makes the same of the directory as the first one (`open_again`). -/

namespace MiniLevelDB

open Effect

/-- What the replay of each log gives. -/
def replays (l : List FileEntry) : List (Status × List (ℕ × WriteOp) × ℕ) :=
  (logContents l).map fun b => DBImpl.replayRecords 0 (readLog b).1

theorem logCalls_eq (l : List FileEntry) : logCalls l = (replays l).flatMap fun r => r.2.1 := by
  rw [replays, List.flatMap_map]
  rfl

theorem lastMaxSeq_eq_foldl (l : List FileEntry) :
    lastMaxSeq 0 l = (replays l).foldl (fun _ r => r.2.2) 0 := by
  rw [replays, List.foldl_map]
  rfl

theorem replays_eq_nil {l : List FileEntry} (h : ofType .kLogFile l = []) : replays l = [] := by
  rw [replays, logContents, h]
  rfl

/-- The replay is the same of a log that was cut. -/
theorem replays_cutting {l l' : List FileEntry} (h : List.Forall₂ Cutting l l') : replays l' = replays l := by
  induction h with
  | nil => rfl
  | @cons p p' l l' hcut _ ih =>
      rcases hcut with rfl | ⟨hlog, -, heq, -, hcut⟩
      · simp only [replays, logContents_cons] at ih ⊢
        split
        · rw [List.map_cons, List.map_cons, ih]
        · exact ih
      · have hlog' : p'.1.type = .kLogFile := by rw [heq, hlog]
        simp only [replays, logContents_cons, hlog, hlog', if_true, List.map_cons] at ih ⊢
        rw [ih, hcut.readLog_eq, DBImpl.replayRecords_consumed]

/-- The files `l` are to be opened with the same outcome as `l₀`. -/
structure Reopens (l₀ l : List FileEntry) : Prop where
  tables : tableContents l = tableContents l₀
  logs : replays l = replays l₀ ∨ (replays l₀ = [] ∧ replays l = [(Status.OK, [], 0)])
  numbers : NumberedFiles l (2 ^ 64 - 2)
  positive : ∀ p ∈ l, p.1.type = .kLogFile → 1 ≤ p.1.number

section

variable {dbname : Bytes} {fs fs₁ fs' : FileSystem} {l₀ l l' : List FileEntry} {db : DBImpl}

/-- Without a number above zero there is no log. -/
theorem Reopens.no_log (h : Reopens l₀ l) (hmax : maxLogNumber 0 l = 0) : ofType .kLogFile l = [] := by
  apply List.eq_nil_iff_forall_not_mem.mpr
  rintro ⟨n, b⟩ hp
  have hmem := mem_ofType.mp hp
  have hle := (le_maxLogNumber 0).2 _ hmem rfl
  have hpos := h.positive _ hmem rfl
  dsimp only at hle hpos
  omega

theorem Reopens.number_lt (h : Reopens l₀ l) : ∀ p ∈ l, p.1.number + 2 < 2 ^ 64 := by
  intro p hp
  have := h.numbers.1 p hp
  omega

/-- **A step**: what a crash leaves of the files is opened with the same outcome. -/
theorem Reopens.leaves (h : Reopens l₀ l) (hleaves : Leaves l none .openDB l') : Reopens l₀ l' := by
  have hscan : ∀ pre post, l = pre ++ post → Reopens l₀ (pre.filter kept ++ post) := by
    rintro pre post hl
    have hsame : ∀ type ≠ FileType.kTempFile, ofType type (pre.filter kept ++ post) = ofType type l := by
      intro type htype
      rw [hl, ofType_append, ofType_kept htype, ofType_append]
    have hsub : ∀ p ∈ pre.filter kept ++ post, p ∈ l := by
      intro p hp
      rw [hl]
      rcases List.mem_append.mp hp with hp | hp
      · exact List.mem_append_left _ (List.mem_of_mem_filter hp)
      · exact List.mem_append_right _ hp
    refine ⟨?_, ?_, ?_, fun p hp => h.positive p (hsub p hp)⟩
    · rw [← h.tables, tableContents, hsame _ (by decide)]
      rfl
    · rw [replays, logContents, hsame _ (by decide)]
      exact h.logs
    · refine h.numbers.of_names (fun p hp => ⟨p, hsub p hp, rfl⟩) fun hnil => ?_
      rwa [hsame _ (by decide)] at hnil
  have hkept : Reopens l₀ (l.filter kept) := by
    have := hscan l [] (List.append_nil l).symm
    rwa [List.append_nil] at this
  cases hleaves with
  | @scanning pre post hl => exact hscan pre post hl
  | cutting hcut =>
      refine ⟨?_, ?_, hkept.numbers.cutting hcut, ?_⟩
      · rw [tableContents, ofType_cutting (by decide) hcut]
        exact hkept.tables
      · rw [replays_cutting hcut]
        exact hkept.logs
      · intro p hp
        have hmem : p.1 ∈ (l.filter kept).map Prod.fst := by
          rw [← map_fst_cutting hcut]
          exact List.mem_map_of_mem hp
        obtain ⟨q, hq, heq⟩ := List.mem_map.mp hmem
        rw [← heq]
        exact hkept.positive q hq
  | creating hmax =>
      have hnil := h.no_log hmax
      have hempty : replays l₀ = [] := by
        rcases h.logs with hlogs | ⟨hlogs, -⟩
        · rw [← hlogs, replays_eq_nil hnil]
        · exact hlogs
      refine ⟨?_, Or.inr ⟨hempty, ?_⟩, ?_, ?_⟩
      · rw [tableContents, ofType_append_log]
        exact hkept.tables
      · rw [replays, logContents, ofType_append, ofType_kept (by decide), hnil]
        simp [log_nil.readLog_eq, DBImpl.replayRecords]
      · refine numberedFiles_of_log (b := []) ?_ (List.mem_append_right _ (List.mem_singleton.mpr rfl))
        intro p hp
        rcases List.mem_append.mp hp with hp | hp
        · exact h.numbers.1 p (List.mem_of_mem_filter hp)
        · obtain rfl := List.mem_singleton.mp hp
          exact h.numbers.nextNumber_lt h.number_lt hnil
      · intro p hp hlog
        rcases List.mem_append.mp hp with hp | hp
        · exact h.positive p (List.mem_of_mem_filter hp) hlog
        · obtain rfl := List.mem_singleton.mp hp
          exact (one_le_nextNumber h.number_lt).1

/-- A directory is opened where its tables load and its logs are replayed. -/
theorem openDB_opens (hdir : Dir dbname fs l) (hnum : ∀ p ∈ l, p.1.number + 2 < 2 ^ 64)
    (hload : ∀ b ∈ tableContents l, ∃ t, Opens b t)
    (hstatus : ∀ b ∈ logContents l, (DBImpl.replayStatus b).ok = true) :
    ∃ db fs' l', (DBImpl.openDB dbname).run (disk offsetLimit) fs = .done (.ok db) fs' ∧
      Opened dbname fs' l l' db := by
  have hfault : ¬ Faults l none .openDB := by
    rintro ⟨b, hloads, f, hf⟩
    cases hloads with
    | mounted hb =>
        obtain ⟨t, ht⟩ := hload b hb
        cases hf.symm.trans ht
  have hroom : LeavesRoom dbname ⟨fs, none⟩ := by
    refine ⟨fun l' hdir' => ?_, fun _ hdb => by cases hdb⟩
    obtain rfl := hdir.unique hdir'
    exact hnum
  obtain ⟨s, db', fs', hrun, l', hdir', hends⟩ :=
    call_done (rests_closed hdir) hroom (rfl : Call.program dbname .openDB none = some _) hfault trivial
  cases hends with
  | refused hs _ hwhy =>
      rcases hwhy with ⟨b, hb, herr⟩ | ⟨b, hb, rfl⟩
      · obtain ⟨t, ht⟩ := hload b hb
        cases herr.symm.trans ht
      · rw [hstatus b hb] at hs
        cases hs
  | @opened _ db₁ hopened =>
      obtain ⟨r, fs₁, hopen, hret⟩ := Prog.run_bind_eq_done _ hrun
      cases r with
      | error s => cases hret
      | ok db =>
          obtain ⟨hs, rfl⟩ := Outcome.done.inj hret
          obtain rfl : db = db₁ := Option.some.inj (Prod.mk.inj hs).2
          exact ⟨db, fs₁, l', hopen, hopened⟩

/-- What is opened is told by the tables and by the replays. -/
theorem Opened.contents_eq (h : Opened dbname fs l l' db) (hnil : maxLogNumber 0 l = 0 → ofType .kLogFile l = []) :
    db.mem = MemTable.empty.insertAll ((replays l).flatMap fun r => r.2.1) ∧
      db.last_seq = (replays l).foldl (fun _ r => r.2.2) 0 ∧ ∀ r ∈ replays l, r.1.ok = true := by
  rcases h.contents with ⟨hmax, -, -, -, hmem, hseq⟩ | ⟨-, hcuts, -, -, hmem, hseq⟩
  · rw [hmem, hseq, replays_eq_nil (hnil hmax)]
    exact ⟨rfl, rfl, fun r hr => absurd hr List.not_mem_nil⟩
  · refine ⟨by rw [hmem, logCalls_eq], by rw [hseq, lastMaxSeq_eq_foldl], ?_⟩
    intro r hr
    obtain ⟨b, hb, rfl⟩ := List.mem_map.mp hr
    obtain ⟨⟨n, c⟩, hp, rfl⟩ := List.mem_map.mp hb
    have hkept := List.mem_filter.mpr ⟨mem_ofType.mp hp, (rfl : kept (⟨n, .kLogFile⟩, c) = true)⟩
    obtain ⟨p', -, hcut⟩ := exists_of_forall₂ hcuts hkept
    rw [Cut, if_pos rfl] at hcut
    exact hcut.1

/-- What an `Open` makes of the files when it is through, and when it is cut off. -/
theorem openDB_ends (hdir : Dir dbname fs l) (hnum : ∀ p ∈ l, p.1.number + 2 < 2 ^ 64) :
    (DBImpl.openDB dbname).wpg (disk offsetLimit) (Safe true) True
      (fun r fs' => ∀ db, r = .ok db → ∃ l', Opened dbname fs' l l' db) (CrashLeaves dbname l none .openDB) fs := by
  apply openDB_wpg hdir hnum
  · exact fun fs' pre post hl hdir' => ⟨_, hdir', .scanning hl⟩
  · exact fun fs' l' hcutting hdir' => ⟨l', hdir', .cutting hcutting⟩
  · exact fun hmax fs' hdir' => ⟨_, hdir', .creating hmax⟩
  · exact fun _ _ _ _ => trivial
  · exact fun _ _ _ _ _ _ _ _ hr => by cases hr
  · rintro fs' l' _ hopened db ⟨⟩
    exact ⟨l', hopened⟩

/-- **A run**: after any number of `Open`s, cut off or not, the files are opened with the same outcome. -/
theorem reopens_crashes (hdir : Dir dbname fs l) (hnumbers : NumberedFiles l (2 ^ 64 - 2))
    (hpositive : ∀ p ∈ l, p.1.type = .kLogFile → 1 ≤ p.1.number)
    (h : Relation.ReflTransGen (fun fs fs' => (DBImpl.openDB dbname).Crash (disk offsetLimit) fs fs') fs fs') :
    ∃ l', Dir dbname fs' l' ∧ Reopens l l' := by
  induction h with
  | refl => exact ⟨l, hdir, rfl, Or.inl rfl, hnumbers, hpositive⟩
  | tail _ hcrash ih =>
      obtain ⟨l₁, hdir₁, hreopens⟩ := ih
      obtain ⟨l₂, hdir₂, hleaves⟩ := Prog.wpg_crash (openDB_ends hdir₁ hreopens.number_lt) hcrash
      exact ⟨l₂, hdir₂, hreopens.leaves hleaves⟩

end

/-- **Opening is repeatable.**  In a directory with files of any bytes whose logs are numbered from 1 and
whose numbers are not used up, let `Open` return a database.  However often `Open` is then cut off at any moment,
or carried through, before it is called once more: it returns a database with the same memtable, the same tables
and the same `last_seq_`. -/
theorem open_again {dbname : Bytes} {fs fs₁ fs' : FileSystem} {l : List FileEntry} {db : DBImpl}
    (hdir : Dir dbname fs l) (hnumbers : NumberedFiles l (2 ^ 64 - 2))
    (hpositive : ∀ p ∈ l, p.1.type = .kLogFile → 1 ≤ p.1.number)
    (hopen : (DBImpl.openDB dbname).run (disk offsetLimit) fs = .done (.ok db) fs₁)
    (hcrashes : Relation.ReflTransGen
      (fun fs fs' => (DBImpl.openDB dbname).Crash (disk offsetLimit) fs fs') fs fs') :
    ∃ (db' : DBImpl) (fs'' : FileSystem),
      (DBImpl.openDB dbname).run (disk offsetLimit) fs' = .done (.ok db') fs'' ∧
        db'.mem = db.mem ∧ db'.tables = db.tables ∧ db'.last_seq = db.last_seq := by
  have hstart : Reopens l l := ⟨rfl, Or.inl rfl, hnumbers, hpositive⟩
  obtain ⟨l', hdir', hreopens⟩ := reopens_crashes hdir hnumbers hpositive hcrashes
  obtain ⟨l₁, hopened⟩ := Prog.wpg_run (openDB_ends hdir hstart.number_lt) hopen db rfl
  obtain ⟨hmem, hseq, hstatus⟩ := hopened.contents_eq hstart.no_log
  have hload : ∀ b ∈ tableContents l', ∃ t, Opens b t := by
    intro b hb
    rw [hreopens.tables] at hb
    obtain ⟨t, -, ht⟩ := exists_of_forall₂ hopened.tables (List.mem_reverse.mpr hb)
    exact ⟨t, ht⟩
  have hstatus' : ∀ r ∈ replays l', r.1.ok = true := by
    rcases hreopens.logs with heq | ⟨-, heq⟩
    · rwa [heq]
    · rw [heq]
      intro r hr
      obtain rfl := List.mem_singleton.mp hr
      rfl
  obtain ⟨db', fs'', l'', hrun, hopened'⟩ := openDB_opens hdir' hreopens.number_lt hload fun b hb =>
    hstatus' _ (List.mem_map_of_mem hb)
  obtain ⟨hmem', hseq', -⟩ := hopened'.contents_eq hreopens.no_log
  refine ⟨db', fs'', hrun, ?_, ?_, ?_⟩
  · rw [hmem', hmem]
    rcases hreopens.logs with heq | ⟨hnil, heq⟩
    · rw [heq]
    · rw [heq, hnil]
      rfl
  · have htables := hopened'.tables
    rw [hreopens.tables] at htables
    exact List.right_unique_forall₂' (fun _ _ _ ht ht' => Except.ok.inj (Except.ok.inj (ht.symm.trans ht')))
      htables hopened.tables
  · rw [hseq', hseq]
    rcases hreopens.logs with heq | ⟨hnil, heq⟩
    · rw [heq]
    · rw [heq, hnil]
      rfl

theorem open_again_two_logs :
    ∃ (fs fs₁ fs₂ : FileSystem) (db db' : DBImpl),
      (DBImpl.openDB (ascii "db")).run (disk offsetLimit) fs = .done (.ok db) fs₁ ∧
        (DBImpl.openDB (ascii "db")).run (disk offsetLimit) fs₁ = .done (.ok db') fs₂ ∧
        db'.mem = db.mem ∧ db'.tables = db.tables ∧ db'.last_seq = db.last_seq := by
  obtain ⟨fs, b, b', h, -⟩ := exists_two_logs [10] [] (by simp) (by simp)
  have hnumbers : NumberedFiles [(⟨1, .kLogFile⟩, b), (⟨2, .kLogFile⟩, b')] (2 ^ 64 - 2) := ⟨by simp, by simp [ofType]⟩
  obtain ⟨db, fs₁, l₁, hopen, -⟩ := openDB_opens h.dir h.number h.tables fun c hc => (h.logs c hc).replay.1
  obtain ⟨db', fs₂, hagain⟩ :=
    open_again h.dir hnumbers (by simp) hopen (.single (Prog.crash_of_run hopen))
  exact ⟨fs, fs₁, fs₂, db, db', hopen, hagain⟩

end MiniLevelDB
