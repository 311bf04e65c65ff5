import MiniLevelDB.Directory
import MiniLevelDB.Replay

/-! # Opening a database

What `DBImpl::Init` does with a directory: `scanFiles_wpg`, `mountTables_wpg` and `replayLogs_wpg` are
its three loops, for any files in the directory, and `openDB_wpg` puts them together.  The conditions
on the way say in which states a crash may leave the directory. -/

namespace MiniLevelDB

open Effect Posix

/-! ### Opening a table -/

/-- The file `b` opens as the table `t`. -/
def Opens (b : Bytes) (t : Table) : Prop := Table.load (RFile.ofBytes b) = .ok (.ok t)

theorem BlockHandle.decodeFrom_error {input : Bytes} {s : Status} (h : decodeFrom input = .error s) :
    s.ok = false := by
  unfold decodeFrom at h
  split at h
  · obtain rfl := Except.error.inj h
    rfl
  · split at h
    · obtain rfl := Except.error.inj h
      rfl
    · cases h

theorem Footer.decodeFrom_error {input : Bytes} {s : Status} (h : decodeFrom input = .error s) :
    s.ok = false := by
  unfold decodeFrom at h
  split_ifs at h
  · obtain rfl := Except.error.inj h
    rfl
  · obtain rfl := Except.error.inj h
    rfl
  · split at h
    · rename_i hs
      obtain rfl := Except.error.inj h
      exact BlockHandle.decodeFrom_error hs
    · split at h
      · rename_i hs
        obtain rfl := Except.error.inj h
        exact BlockHandle.decodeFrom_error hs
      · cases h

theorem readBlock_error {file : RFile} {handle : BlockHandle} {s : Status}
    (h : readBlock file handle = .ok (.error s)) : s.ok = false := by
  unfold readBlock at h
  simp only at h
  split_ifs at h
  · obtain rfl := Except.error.inj (Except.ok.inj h)
    rfl
  · obtain rfl := Except.error.inj (Except.ok.inj h)
    rfl
  · split at h
    · cases h
    · split_ifs at h
      · obtain rfl := Except.error.inj (Except.ok.inj h)
        rfl
      · obtain rfl := Except.error.inj (Except.ok.inj h)
        rfl
      · cases h

/-- The errors of `Open` are errors. -/
theorem Table.load_error {file : RFile} {s : Status} (h : load file = .ok (.error s)) :
    s.ok = false := by
  unfold load at h
  simp only at h
  split_ifs at h
  · obtain rfl := Except.error.inj (Except.ok.inj h)
    rfl
  · obtain rfl := Except.error.inj (Except.ok.inj h)
    rfl
  · split at h
    · rename_i hs
      obtain rfl := Except.error.inj (Except.ok.inj h)
      exact Footer.decodeFrom_error hs
    · split at h
      · cases h
      · rename_i hs
        obtain rfl := Except.error.inj (Except.ok.inj h)
        exact readBlock_error hs
      · split at h <;> cases h

section

variable {room : ℕ → Bool} {reopen : Bool} {E : Prop} {C : FileSystem → Prop} {fs : FileSystem}

theorem openTable_wpg {fname : Bytes} {Q : Except Status Table → FileSystem → Prop} (hmem : fname ∈ fs)
    (hC : C fs) (hfault : ∀ f, Table.load (RFile.ofBytes (fs.get fname)) = .error f → E)
    (herror : ∀ s, Table.load (RFile.ofBytes (fs.get fname)) = .ok (.error s) → Q (.error s) fs)
    (hok : ∀ t, Opens (fs.get fname) t → Q (.ok t) fs) :
    (Table.openTable fname).wpg (disk room) (Safe reopen) E Q C fs := by
  refine op_wpg hC trivial rfl (fun _ h => h) ?_
  rw [decide_eq_true hmem, if_neg (by simp)]
  refine op_wpg hC trivial rfl (fun _ h => h) ?_
  cases hload : Table.load (RFile.ofBytes (fs.get fname)) with
  | error f => exact ⟨hC, hfault f hload⟩
  | ok r =>
      cases r with
      | error s =>
          refine op_wpg hC trivial rfl (fun _ h => h) ?_
          exact Prog.wpg_ret hC (herror s hload)
      | ok t => exact Prog.wpg_ret hC (hok t hload)

/-! ### The scan -/

/-- What the scan keeps. -/
def kept (p : FileEntry) : Bool := decide (p.1.type ≠ .kTempFile)

/-- `next_file_number_` after the scan. -/
def nextNumber (n : ℕ) (l : List FileEntry) : ℕ :=
  l.foldl (fun n p => if p.1.number ≥ n then (p.1.number + 1) % 2 ^ 64 else n) n

/-- `max_log_number` after the scan. -/
def maxLogNumber (n : ℕ) (l : List FileEntry) : ℕ :=
  l.foldl (fun n p => if p.1.type = .kLogFile ∧ p.1.number > n then p.1.number else n) n

variable {dbname : Bytes}

theorem listFiles_wpg {α : Type} {Q : α → FileSystem → Prop} {l : List FileEntry}
    (hdir : Dir dbname fs l) (hC : C fs) {k : Except Status (List FileInfo) → FileProg α}
    (hk : (k (.ok (l.map Prod.fst))).wpg (disk room) (Safe reopen) E Q C fs) :
    (listFiles dbname >>= k).wpg (disk room) (Safe reopen) E Q C fs := by
  refine op_wpg hC trivial rfl (fun _ h => h) ?_
  rw [← hdir.lists.sorted_entries] at hk
  exact hk

theorem without_mid {done rest : List FileEntry} {p : FileEntry} (hdir : Dir dbname fs (done ++ p :: rest)) :
    without p.1 (done ++ p :: rest) = done ++ rest := by
  have hsorted := List.pairwise_append.mp hdir.sorted
  have hdone : done.filter (fun q => decide (q.1 ≠ p.1)) = done := by
    refine List.filter_eq_self.mpr fun q hq => decide_eq_true fun heq => ?_
    exact absurd (congrArg FileInfo.number heq) (hsorted.2.2 q hq p List.mem_cons_self).ne
  have hrest : rest.filter (fun q => decide (q.1 ≠ p.1)) = rest := by
    refine List.filter_eq_self.mpr fun q hq => decide_eq_true fun heq => ?_
    exact absurd (congrArg FileInfo.number heq).symm ((List.pairwise_cons.mp hsorted.2.1).1 q hq).ne
  rw [without, List.filter_append, hdone, List.filter_cons_of_neg (by simp), hrest]

theorem scanFiles_wpg {db : DBImpl} {n : ℕ} {Q : Status × DBImpl × ℕ → FileSystem → Prop}
    {done rest : List FileEntry} (hdb : db.dbname = dbname) (hdir : Dir dbname fs (done ++ rest))
    (hC : ∀ fs' pre post, rest = pre ++ post → Dir dbname fs' (done ++ (pre.filter kept ++ post)) → C fs')
    (hQ : ∀ fs', Dir dbname fs' (done ++ rest.filter kept) →
      Q (Status.OK, { db with next_file_number := nextNumber db.next_file_number rest },
        maxLogNumber n rest) fs') :
    (db.scanFiles n (rest.map Prod.fst)).wpg (disk room) (Safe reopen) E Q C fs := by
  induction rest generalizing db n done fs with
  | nil => exact Prog.wpg_ret (hC fs [] [] rfl hdir) (hQ fs hdir)
  | cons p rest ih =>
      obtain ⟨⟨number, type⟩, b⟩ := p
      obtain ⟨db', hdb', hnext⟩ : ∃ db' : DBImpl, db' = (if number ≥ db.next_file_number
          then { db with next_file_number := (number + 1) % 2 ^ 64 } else db) ∧
          db' = { db with next_file_number :=
            if number ≥ db.next_file_number then (number + 1) % 2 ^ 64 else db.next_file_number } := by
        refine ⟨_, rfl, ?_⟩
        split <;> rfl
      rw [List.map_cons, DBImpl.scanFiles]
      simp only [← hdb']
      have hname : db'.dbname = dbname := by rw [hnext, hdb]
      have hresult : { db' with next_file_number := nextNumber db'.next_file_number rest } =
          { db with next_file_number := nextNumber db.next_file_number ((⟨number, type⟩, b) :: rest) } := by
        rw [hnext]
        rfl
      -- a file that stays is one more that is done
      have hstay : ∀ n', maxLogNumber n' rest = maxLogNumber n ((⟨number, type⟩, b) :: rest) →
          type ≠ .kTempFile →
          (db'.scanFiles n' (rest.map Prod.fst)).wpg (disk room) (Safe reopen) E Q C fs := by
        intro n' hn' hstay
        have hkept : ∀ l, List.filter kept ((⟨number, type⟩, b) :: l) = (⟨number, type⟩, b) :: l.filter kept :=
          fun l => List.filter_cons_of_pos (decide_eq_true hstay)
        rw [List.append_cons] at hdir
        refine ih hname hdir ?_ ?_
        · intro fs' pre post hsplit hdir'
          refine hC fs' ((⟨number, type⟩, b) :: pre) post (by rw [hsplit]; rfl) ?_
          rw [hkept, List.cons_append, List.append_cons]
          exact hdir'
        · intro fs' hdir'
          rw [hresult, hn']
          refine hQ fs' ?_
          rw [hkept, List.append_cons]
          exact hdir'
      cases type with
      | kTempFile =>
          have hmem : fileName dbname ⟨number, .kTempFile⟩ ∈ fs :=
            hdir.mem (List.mem_append_right _ List.mem_cons_self)
          have herase := hdir.erase (hdir.number_lt (List.mem_append_right _ List.mem_cons_self))
          rw [without_mid hdir] at herase
          have hkept : ∀ l, List.filter kept ((⟨number, .kTempFile⟩, b) :: l) = l.filter kept := fun l =>
            List.filter_cons_of_neg (by simp [kept])
          simp only [hname, tempFileName_eq]
          refine op_wpg (hC fs [] _ rfl hdir) trivial (if_pos hmem) (fun _ h => h) ?_
          refine ih hname herase ?_ ?_
          · intro fs' pre post hsplit hdir'
            exact hC fs' ((⟨number, .kTempFile⟩, b) :: pre) post (by rw [hsplit]; rfl)
              (by rw [hkept]; exact hdir')
          · intro fs' hdir'
            rw [hresult]
            exact hQ fs' (by rw [hkept]; exact hdir')
      | kLogFile =>
          refine hstay _ ?_ (by decide)
          simp only [maxLogNumber, List.foldl_cons, true_and]
      | kTableFile =>
          refine hstay _ ?_ (by decide)
          simp [maxLogNumber, List.foldl_cons]

/-! ### The tables -/

/-- The contents of the tables among some files. -/
def tableContents (l : List FileEntry) : List Bytes := (ofType .kTableFile l).map Prod.snd

theorem tableContents_cons (p : FileEntry) (l : List FileEntry) :
    tableContents (p :: l) =
      if p.1.type = .kTableFile then p.2 :: tableContents l else tableContents l := by
  rw [tableContents, ofType, List.filterMap_cons]
  by_cases h : p.1.type = .kTableFile
  · rw [if_pos h, if_pos h]
    rfl
  · rw [if_neg h, if_neg h]
    rfl

theorem mountTables_wpg {db : DBImpl} {Q : Status × DBImpl → FileSystem → Prop}
    {l rest : List FileEntry} (hdb : db.dbname = dbname) (hdir : Dir dbname fs l) (hsub : rest ⊆ l)
    (hC : C fs) (hfault : ∀ b ∈ tableContents rest, ∀ f, Table.load (RFile.ofBytes b) = .error f → E)
    (herror : ∀ b ∈ tableContents rest, ∀ s, Table.load (RFile.ofBytes b) = .ok (.error s) →
      ∀ db', db'.log_file = db.log_file → Q (s, db') fs)
    (hok : ∀ tables, List.Forall₂ Opens (tableContents rest) tables →
      Q (Status.OK, { db with tables := db.tables ++ tables }) fs) :
    (db.mountTables (rest.map Prod.fst)).wpg (disk room) (Safe reopen) E Q C fs := by
  induction rest generalizing db with
  | nil =>
      refine Prog.wpg_ret hC ?_
      have := hok [] .nil
      rwa [List.append_nil] at this
  | cons p rest ih =>
      obtain ⟨hp, hrest⟩ := List.cons_subset.mp hsub
      rw [List.map_cons, DBImpl.mountTables]
      rw [tableContents_cons] at hfault herror hok
      by_cases htype : p.1.type = .kTableFile
      · rw [if_pos htype] at hfault herror hok
        rw [if_neg (not_not.mpr htype)]
        have hname : tableFileName db.dbname p.1.number = fileName dbname p.1 := by
          rw [hdb, tableFileName_eq, ← htype]
        have hget := hdir.get p hp
        rw [hname]
        refine Prog.wpg_bind (openTable_wpg (hdir.mem hp) hC ?_ ?_ ?_)
        · intro f hf
          rw [hget] at hf
          exact hfault p.2 List.mem_cons_self f hf
        · intro s hs
          rw [hget] at hs
          exact Prog.wpg_ret hC (herror p.2 List.mem_cons_self s hs db rfl)
        · intro t ht
          rw [hget] at ht
          refine ih hdb hrest (fun b hb => hfault b (List.mem_cons_of_mem _ hb)) ?_ ?_
          · intro b hb s hs db' hdb'
            exact herror b (List.mem_cons_of_mem _ hb) s hs db' hdb'
          · intro tables htables
            have := hok (t :: tables) (.cons ht htables)
            rwa [List.append_cons] at this
      · rw [if_neg htype] at hfault herror hok
        rw [if_pos htype]
        exact ih hdb hrest hfault herror hok

/-! ### The logs -/

/-- The log `p` was cut to the records a replay consumes. -/
def CutTo (p p' : FileEntry) : Prop :=
  p'.1 = p.1 ∧ p'.2 <+: p.2 ∧ Log p'.2 (DBImpl.consumed (readLog p.2).1)

/-- A file while the logs are replayed: the logs are cut one after the other. -/
def Cutting (p p' : FileEntry) : Prop :=
  p' = p ∨ (p.1.type = .kLogFile ∧ (DBImpl.replayStatus p.2).ok = true ∧ CutTo p p')

/-- A file after the logs were replayed. -/
def Cut (p p' : FileEntry) : Prop :=
  if p.1.type = .kLogFile then (DBImpl.replayStatus p.2).ok = true ∧ CutTo p p' else p' = p

theorem Cut.cutting {p p' : FileEntry} (h : Cut p p') : Cutting p p' := by
  unfold Cut at h
  split at h
  · rename_i htype
    exact Or.inr ⟨htype, h.1, h.2⟩
  · exact Or.inl h

/-- The contents of the logs among some files. -/
def logContents (l : List FileEntry) : List Bytes := (ofType .kLogFile l).map Prod.snd

theorem logContents_cons (p : FileEntry) (l : List FileEntry) :
    logContents (p :: l) = if p.1.type = .kLogFile then p.2 :: logContents l else logContents l := by
  rw [logContents, ofType, List.filterMap_cons]
  by_cases h : p.1.type = .kLogFile
  · rw [if_pos h, if_pos h]
    rfl
  · rw [if_neg h, if_neg h]
    rfl

theorem setContent_mid {done rest : List FileEntry} {p : FileEntry} (hdir : Dir dbname fs (done ++ p :: rest))
    (b : Bytes) : setContent p.1 b (done ++ p :: rest) = done ++ (p.1, b) :: rest := by
  have hsorted := List.pairwise_append.mp hdir.sorted
  have hother : ∀ l : List FileEntry, (∀ q ∈ l, q.1 ≠ p.1) →
      l.map (fun q => if q.1 = p.1 then (p.1, b) else q) = l := by
    intro l hl
    exact (List.map_congr_left fun q hq => if_neg (hl q hq)).trans (List.map_id' l)
  have hdone := hother done fun q hq heq =>
    absurd (congrArg FileInfo.number heq) (hsorted.2.2 q hq p List.mem_cons_self).ne
  have hrest := hother rest fun q hq heq =>
    absurd (congrArg FileInfo.number heq).symm ((List.pairwise_cons.mp hsorted.2.1).1 q hq).ne
  rw [setContent, List.map_append, hdone, List.map_cons, hrest, if_pos rfl]

/-- Opening a file that is there, without emptying it. -/
theorem fopen_ok_of_mem {path : Bytes} {mode : Mode} (hmem : path ∈ fs) (hmode : mode ≠ .wb) :
    FileSystem.ok room fs (.fopen path mode) = some (true, fs) := by
  cases mode with
  | wb => exact absurd rfl hmode
  | ab => exact congrArg (fun w => some (true, w)) (if_pos hmem)
  | rpb => exact congrArg (fun r => some (r, fs)) (decide_eq_true hmem)
  | rb => exact congrArg (fun r => some (r, fs)) (decide_eq_true hmem)

theorem safe_reopen (path : Bytes) {mode : Mode} (hmode : mode ≠ .wb) : Safe true fs (.fopen path mode) := by
  cases mode with
  | wb => exact absurd rfl hmode
  | ab => exact Or.inl rfl
  | rpb => trivial
  | rb => trivial

theorem recover_harmless (db : DBImpl) (file : FILE) (seq : ℕ) : (db.recover file seq).Only Harmless := by
  refine only_op (harmless_snapshot file) fun f => ?_
  simp only
  split
  · trivial
  · refine only_op (harmless_ftruncate _ _) fun done => ?_
    split <;> trivial

/-- The sequence number after the logs `l` were replayed: the last log's. -/
def lastMaxSeq (seq : ℕ) (l : List FileEntry) : ℕ :=
  (logContents l).foldl (fun _ b => DBImpl.maxSeqOf b) seq

/-- The calls of replaying the logs among some files. -/
def logCalls (l : List FileEntry) : List (ℕ × WriteOp) := (logContents l).flatMap DBImpl.callsOf

/-- What the replay of the logs `l`, cut to `l'`, makes of a database: the log `n` becomes its own. -/
structure Replayed (dbname : Bytes) (n : ℕ) (l l' : List FileEntry) (db db' : DBImpl) : Prop where
  name_eq : db'.dbname = db.dbname
  tables : db'.tables = db.tables
  next_file_number : db'.next_file_number = db.next_file_number
  mem : db'.mem = db.mem.insertAll (logCalls l)
  current : ∀ b, (⟨n, .kLogFile⟩, b) ∈ l' → db'.log_number = n ∧
    db'.log_file = some (logFileName dbname n) ∧
    db'.log = some (LogWriter.new (logFileName dbname n) b.length)
  other : (∀ p ∈ l', p.1 ≠ ⟨n, .kLogFile⟩) → db'.log_number = db.log_number ∧
    db'.log_file = db.log_file ∧ db'.log = db.log

theorem replayLogs_wpg {db : DBImpl} {n seq : ℕ} {Q : Status × DBImpl × ℕ → FileSystem → Prop}
    {done rest : List FileEntry} (hdb : db.dbname = dbname) (hdir : Dir dbname fs (done ++ rest))
    (hC : ∀ fs' rest', List.Forall₂ Cutting rest rest' → Dir dbname fs' (done ++ rest') → C fs')
    (hbad : ∀ fs' rest' b db' seq', b ∈ logContents rest → (DBImpl.replayStatus b).ok = false →
      List.Forall₂ Cutting rest rest' → Dir dbname fs' (done ++ rest') →
        Q (DBImpl.replayStatus b, db', seq') fs')
    (hok : ∀ fs' rest' db', List.Forall₂ Cut rest rest' → Dir dbname fs' (done ++ rest') →
      Replayed dbname n rest rest' db db' → Q (Status.OK, db', lastMaxSeq seq rest) fs') :
    (db.replayLogs n seq (rest.map Prod.fst)).wpg (disk room) (Safe true) E Q C fs := by
  induction rest generalizing db seq done fs with
  | nil =>
      refine Prog.wpg_ret (hC fs [] .nil hdir) (hok fs [] db .nil hdir ?_)
      exact ⟨rfl, rfl, rfl, rfl, fun b h => absurd h List.not_mem_nil, fun _ => ⟨rfl, rfl, rfl⟩⟩
  | cons p rest ih =>
      rw [List.map_cons, DBImpl.replayLogs]
      by_cases htype : p.1.type = .kLogFile
      · have hcontents : logContents (p :: rest) = p.2 :: logContents rest := by
          rw [logContents_cons, if_pos htype]
        have hp : p ∈ done ++ p :: rest := List.mem_append_right _ List.mem_cons_self
        have hmem : fileName dbname p.1 ∈ fs := hdir.mem hp
        have hget := hdir.get p hp
        have hname : logFileName db.dbname p.1.number = fileName dbname p.1 := by
          rw [hdb, logFileName_eq, ← htype]
        have hsame : List.Forall₂ Cutting (p :: rest) (p :: rest) :=
          List.forall₂_same.mpr fun q _ => Or.inl rfl
        have hC₀ : C fs := hC fs (p :: rest) hsame hdir
        have hmode : (if p.1.number = n then Mode.ab else .rpb) ≠ .wb := by split <;> decide
        rw [if_neg (not_not.mpr htype)]
        simp only [hname]
        refine op_wpg hC₀ (safe_reopen _ hmode) (fopen_ok_of_mem hmem hmode) (fun _ h => h) ?_
        rw [if_neg (by simp)]
        refine Prog.wpg_bind (wpg_of_harmless (DBImpl.recover_wp hC₀ ?_ ?_) (recover_harmless _ _ _))
        · -- a batch that cannot be replayed
          intro hstatus
          rw [hget] at hstatus ⊢
          simp only [hstatus, Bool.not_false, if_true]
          refine op_wpg hC₀ trivial rfl (fun _ h => h) ?_
          refine Prog.wpg_ret hC₀ (hbad fs (p :: rest) p.2 _ seq ?_ hstatus hsame hdir)
          rw [hcontents]
          exact List.mem_cons_self
        · intro hstatus b hprefix hlog
          rw [hget] at hstatus hprefix hlog ⊢
          have hcut : Cut p (p.1, b) := by
            rw [Cut, if_pos htype]
            exact ⟨hstatus, rfl, hprefix, hlog⟩
          have hset := hdir.set hp b
          rw [setContent_mid hdir] at hset
          have hC₁ : ∀ fs' rest', List.Forall₂ Cutting rest rest' →
              Dir dbname fs' (done ++ [(p.1, b)] ++ rest') → C fs' := by
            intro fs' rest' hcutting hdir'
            rw [← List.append_cons] at hdir'
            exact hC fs' ((p.1, b) :: rest') (.cons hcut.cutting hcutting) hdir'
          have hdir₁ := hset
          rw [List.append_cons] at hdir₁
          have hC₂ := hC₁ _ rest (List.forall₂_same.mpr fun q _ => Or.inl rfl) hdir₁
          have hseq : ∀ seq', lastMaxSeq (DBImpl.maxSeqOf p.2) rest = lastMaxSeq seq' (p :: rest) := by
            intro seq'
            rw [lastMaxSeq, lastMaxSeq, hcontents]
            rfl
          refine ⟨hC₂, ?_⟩
          simp only [Status.ok_OK, Bool.not_true, Bool.false_eq_true, if_false]
          -- whatever becomes of the log's stream, the loop goes on from `db₁`
          have hgo : ∀ db₁ : DBImpl, db₁.dbname = db.dbname → db₁.tables = db.tables →
              db₁.next_file_number = db.next_file_number →
              db₁.mem = db.mem.insertAll (DBImpl.callsOf p.2) →
              (p.1.number = n → db₁.log_number = n ∧ db₁.log_file = some (logFileName dbname n) ∧
                db₁.log = some (LogWriter.new (logFileName dbname n) b.length)) →
              (p.1.number ≠ n → db₁.log_number = db.log_number ∧ db₁.log_file = db.log_file ∧
                db₁.log = db.log) →
              (db₁.replayLogs n (DBImpl.maxSeqOf p.2) (rest.map Prod.fst)).wpg (disk room) (Safe true) E
                Q C (fs.insert (fileName dbname p.1) b) := by
            intro db₁ h1 h2 h3 h4 hcurrent hother
            refine ih (h1.trans hdb) hdir₁ hC₁ ?_ ?_
            · intro fs' rest' c db' seq' hc hbadc hcutting hdir'
              rw [← List.append_cons] at hdir'
              refine hbad fs' ((p.1, b) :: rest') c db' seq' ?_ hbadc (.cons hcut.cutting hcutting) hdir'
              rw [hcontents]
              exact List.mem_cons_of_mem _ hc
            · intro fs' rest' db' hcuts hdir' hrep
              rw [hseq seq]
              rw [← List.append_cons] at hdir'
              refine hok fs' ((p.1, b) :: rest') db' (.cons hcut hcuts) hdir' ?_
              -- the numbers of the files differ, so the log `n` is this one or a later one
              have hhead : ∀ q ∈ rest', q.1 ≠ p.1 := by
                intro q hq heq
                have hsorted := (List.pairwise_append.mp hdir'.sorted).2.1
                exact absurd (congrArg FileInfo.number heq).symm
                  ((List.pairwise_cons.mp hsorted).1 q hq).ne
              have hfile : ∀ m, p.1 = ⟨m, .kLogFile⟩ ↔ p.1.number = m := by
                intro m
                constructor
                · intro h
                  rw [h]
                · rintro rfl
                  rw [← htype]
              refine ⟨hrep.name_eq.trans h1, hrep.tables.trans h2, hrep.next_file_number.trans h3, ?_,
                ?_, ?_⟩
              · rw [hrep.mem, h4, ← MemTable.insertAll_append, logCalls, logCalls, hcontents,
                  List.flatMap_cons]
              · intro c hc
                rcases List.mem_cons.mp hc with heq | hc
                · obtain ⟨hpn, rfl⟩ := Prod.mk.inj heq
                  have hpn := hpn.symm
                  have hrest := hrep.other fun q hq => hpn ▸ hhead q hq
                  have hthis := hcurrent ((hfile n).mp hpn)
                  exact ⟨hrest.1.trans hthis.1, hrest.2.1.trans hthis.2.1, hrest.2.2.trans hthis.2.2⟩
                · exact hrep.current c hc
              · intro h
                have hrest := hrep.other fun q hq => h q (List.mem_cons_of_mem _ hq)
                have hthis := hother fun hn => h (p.1, b) List.mem_cons_self ((hfile n).mpr hn)
                exact ⟨hrest.1.trans hthis.1, hrest.2.1.trans hthis.2.1, hrest.2.2.trans hthis.2.2⟩
          split
          · rename_i hn
            have hpath : fileName dbname p.1 = logFileName dbname n := by
              rw [← hname, hdb, hn]
            refine op_wpg hC₂ trivial rfl (fun _ h => h) ?_
            refine hgo _ rfl rfl rfl rfl (fun _ => ⟨hn, congrArg some hpath, ?_⟩) (fun h => absurd hn h)
            rw [FileSystem.get_insert, hpath]
            rfl
          · rename_i hn
            refine op_wpg hC₂ trivial rfl (fun _ h => h) ?_
            exact hgo _ rfl rfl rfl rfl (fun h => absurd h hn) (fun _ => ⟨rfl, rfl, rfl⟩)
      · have hcontents : logContents (p :: rest) = logContents rest := by
          rw [logContents_cons, if_neg htype]
        rw [if_pos htype]
        rw [List.append_cons] at hdir
        refine ih hdb hdir ?_ ?_ ?_
        · intro fs' rest' hcut hdir'
          rw [← List.append_cons] at hdir'
          exact hC fs' (p :: rest') (.cons (Or.inl rfl) hcut) hdir'
        · intro fs' rest' b db' seq' hb hstatus hcut hdir'
          rw [← List.append_cons] at hdir'
          rw [← hcontents] at hb
          exact hbad fs' (p :: rest') b db' seq' hb hstatus (.cons (Or.inl rfl) hcut) hdir'
        · intro fs' rest' db' hcut hdir' hrep
          rw [← List.append_cons] at hdir'
          rw [lastMaxSeq, ← hcontents]
          refine hok fs' (p :: rest') db' (.cons (by rw [Cut, if_neg htype]) hcut) hdir' ?_
          refine ⟨hrep.name_eq, hrep.tables, hrep.next_file_number, ?_, ?_, ?_⟩
          · rw [hrep.mem, logCalls, logCalls, hcontents]
          · intro b hb
            rcases List.mem_cons.mp hb with heq | hb
            · exact absurd (congrArg (·.1.type) heq.symm) htype
            · exact hrep.current b hb
          · intro h
            exact hrep.other fun q hq => h q (List.mem_cons_of_mem _ hq)

/-! ### `Init` -/

theorem replayLogs_kept (db : DBImpl) (n seq : ℕ) (l : List FileEntry) :
    db.replayLogs n seq (l.map Prod.fst) = db.replayLogs n seq ((l.filter kept).map Prod.fst) := by
  induction l generalizing db seq with
  | nil => rfl
  | cons p l ih =>
      by_cases htmp : p.1.type = .kTempFile
      · rw [List.filter_cons_of_neg (by simp [kept, htmp]), List.map_cons, DBImpl.replayLogs,
          if_pos (by rw [htmp]; decide), ih]
      · rw [List.filter_cons_of_pos (by simp [kept, htmp])]
        simp only [List.map_cons, DBImpl.replayLogs, ih]

theorem mountTables_kept (db : DBImpl) (l : List FileEntry) :
    db.mountTables (l.map Prod.fst) = db.mountTables ((l.filter kept).map Prod.fst) := by
  induction l generalizing db with
  | nil => rfl
  | cons p l ih =>
      by_cases htmp : p.1.type = .kTempFile
      · rw [List.filter_cons_of_neg (by simp [kept, htmp]), List.map_cons, DBImpl.mountTables,
          if_pos (by rw [htmp]; decide), ih]
      · rw [List.filter_cons_of_pos (by simp [kept, htmp])]
        simp only [List.map_cons, DBImpl.mountTables, ih]

/-- Orphans are neither tables nor logs. -/
theorem ofType_kept {type : FileType} (h : type ≠ .kTempFile) (l : List FileEntry) :
    ofType type (l.filter kept) = ofType type l := by
  rw [ofType, List.filterMap_filter]
  refine List.filterMap_congr fun p _ => ?_
  by_cases htmp : p.1.type = .kTempFile
  · simp [kept, htmp, Ne.symm h]
  · simp [kept, htmp]

theorem nextNumber_bounds (n : ℕ) {l : List FileEntry} (h : ∀ p ∈ l, p.1.number + 1 < 2 ^ 64) :
    n ≤ nextNumber n l ∧ (∀ p ∈ l, p.1.number < nextNumber n l) ∧
      ∀ m, n ≤ m → (∀ p ∈ l, p.1.number < m) → nextNumber n l ≤ m := by
  induction l generalizing n with
  | nil => exact ⟨le_refl n, fun p hp => absurd hp List.not_mem_nil, fun m hm _ => hm⟩
  | cons p l ih =>
      have hp := h p List.mem_cons_self
      have hstep : (if p.1.number ≥ n then (p.1.number + 1) % 2 ^ 64 else n) = max n (p.1.number + 1) := by
        split
        · rw [Nat.mod_eq_of_lt hp]
          omega
        · omega
      obtain ⟨h1, h2, h3⟩ := ih (max n (p.1.number + 1)) fun q hq => h q (List.mem_cons_of_mem _ hq)
      rw [nextNumber, List.foldl_cons, hstep, ← nextNumber]
      refine ⟨by omega, fun q hq => ?_, fun m hm hlt => h3 m ?_ fun q hq => ?_⟩
      · rcases List.mem_cons.mp hq with rfl | hq
        · omega
        · exact h2 q hq
      · have := hlt p List.mem_cons_self
        omega
      · exact hlt q (List.mem_cons_of_mem _ hq)

theorem maxLogNumber_cases (n : ℕ) (l : List FileEntry) :
    maxLogNumber n l = n ∨ ∃ b, (⟨maxLogNumber n l, .kLogFile⟩, b) ∈ l := by
  induction l generalizing n with
  | nil => exact Or.inl rfl
  | cons p l ih =>
      rw [maxLogNumber, List.foldl_cons, ← maxLogNumber]
      split
      · rename_i hp
        rcases ih p.1.number with heq | ⟨b, hb⟩
        · rw [heq]
          refine Or.inr ⟨p.2, ?_⟩
          rw [← hp.1]
          exact List.mem_cons_self
        · exact Or.inr ⟨b, List.mem_cons_of_mem _ hb⟩
      · rcases ih n with heq | ⟨b, hb⟩
        · exact Or.inl heq
        · exact Or.inr ⟨b, List.mem_cons_of_mem _ hb⟩

theorem le_maxLogNumber {l : List FileEntry} (n : ℕ) :
    n ≤ maxLogNumber n l ∧ ∀ p ∈ l, p.1.type = .kLogFile → p.1.number ≤ maxLogNumber n l := by
  induction l generalizing n with
  | nil => exact ⟨le_rfl, fun p hp => absurd hp List.not_mem_nil⟩
  | cons q l ih =>
      rw [maxLogNumber, List.foldl_cons, ← maxLogNumber]
      obtain ⟨h1, h2⟩ := ih (if q.1.type = .kLogFile ∧ q.1.number > n then q.1.number else n)
      constructor
      · apply le_trans _ h1
        split_ifs
        · omega
        · exact le_rfl
      · intro p hp htype
        rcases List.mem_cons.mp hp with rfl | hp
        · apply le_trans _ h1
          split_ifs with hgt
          · exact le_rfl
          · exact not_lt.mp fun hlt => hgt ⟨htype, hlt⟩
        · exact h2 p hp htype

/-- `Open` has made a database of the directory `l`, which is now `l'`. -/
structure Opened (dbname : Bytes) (fs : FileSystem) (l l' : List FileEntry) (db : DBImpl) : Prop where
  dir : Dir dbname fs l'
  name_eq : db.dbname = dbname
  tables : List.Forall₂ Opens (tableContents l).reverse db.tables
  log : ∃ b, (⟨db.log_number, .kLogFile⟩, b) ∈ l' ∧
    db.log_file = some (logFileName dbname db.log_number) ∧
    db.log = some (LogWriter.new (logFileName dbname db.log_number) b.length)
  contents :
    (maxLogNumber 0 l = 0 ∧ l' = l.filter kept ++ [(⟨nextNumber 1 l, .kLogFile⟩, [])] ∧
      db.log_number = nextNumber 1 l ∧ db.next_file_number = nextNumber 1 l + 1 ∧
      db.mem = MemTable.empty ∧ db.last_seq = 0) ∨
    (maxLogNumber 0 l ≠ 0 ∧ List.Forall₂ Cut (l.filter kept) l' ∧ db.log_number = maxLogNumber 0 l ∧
      db.next_file_number = nextNumber 1 l ∧ db.mem = MemTable.empty.insertAll (logCalls l) ∧
      db.last_seq = lastMaxSeq 0 l)

theorem close_wpg {db : DBImpl} {α : Type} {Q : α → FileSystem → Prop} {k : Unit → FileProg α} (hC : C fs)
    (hk : (k ()).wpg (disk room) (Safe reopen) E Q C fs) :
    (db.close >>= k).wpg (disk room) (Safe reopen) E Q C fs := by
  unfold DBImpl.close
  split
  · exact hk
  · refine op_wpg hC trivial rfl (fun _ h => h) ?_
    exact op_wpg hC trivial rfl (fun _ h => h) hk

theorem exists_of_forall₂ {α β : Type} {R : α → β → Prop} {l : List α} {l' : List β}
    (h : List.Forall₂ R l l') {a : α} (ha : a ∈ l) : ∃ b ∈ l', R a b := by
  induction h with
  | nil => cases ha
  | @cons a' b' l l' hab _ ih =>
      rcases List.mem_cons.mp ha with rfl | ha
      · exact ⟨b', List.mem_cons_self, hab⟩
      · obtain ⟨b, hb, hR⟩ := ih ha
        exact ⟨b, List.mem_cons_of_mem _ hb, hR⟩

theorem init_wpg {Q : Status × DBImpl → FileSystem → Prop} {l : List FileEntry}
    (hdir : Dir dbname fs l) (hnum : ∀ p ∈ l, p.1.number + 2 < 2 ^ 64)
    (hscan : ∀ fs' pre post, l = pre ++ post → Dir dbname fs' (pre.filter kept ++ post) → C fs')
    (hcut : ∀ fs' l', List.Forall₂ Cutting (l.filter kept) l' → Dir dbname fs' l' → C fs')
    (hnew : maxLogNumber 0 l = 0 → ∀ fs',
      Dir dbname fs' (l.filter kept ++ [(⟨nextNumber 1 l, .kLogFile⟩, [])]) → C fs')
    (hfault : ∀ b ∈ tableContents l, ∀ f, Table.load (RFile.ofBytes b) = .error f → E)
    (herror : ∀ fs' l' s db, s.ok = false → List.Forall₂ Cutting (l.filter kept) l' →
      Dir dbname fs' l' → ((∃ b ∈ tableContents l, Table.load (RFile.ofBytes b) = .ok (.error s)) ∨
        ∃ b ∈ logContents l, s = DBImpl.replayStatus b) → Q (s, db) fs')
    (hok : ∀ fs' l' db, Opened dbname fs' l l' db → Q (Status.OK, db) fs') :
    (DBImpl.new dbname).init.wpg (disk room) (Safe true) E Q C fs := by
  have hC₀ : C fs := hscan fs [] l rfl hdir
  obtain ⟨hnext₁, hnext₂, hnext₃⟩ := nextNumber_bounds 1 fun p hp => (by
    have := hnum p hp
    omega : p.1.number + 1 < 2 ^ 64)
  have hnext : nextNumber 1 l + 1 < 2 ^ 64 := by
    have := hnext₃ (2 ^ 64 - 2) (by decide) fun p hp => by
      have := hnum p hp
      omega
    omega
  have htables : tableContents ((l.filter kept).reverse) = (tableContents l).reverse := by
    rw [tableContents, ofType, List.filterMap_reverse, List.map_reverse, ← ofType, ofType_kept (by decide)]
    rfl
  have hlogs : logContents (l.filter kept) = logContents l := by
    rw [logContents, ofType_kept (by decide)]
    rfl
  unfold DBImpl.init
  refine op_wpg hC₀ trivial rfl (fun _ h => h) ?_
  refine listFiles_wpg hdir hC₀ ?_
  refine Prog.wpg_bind (@scanFiles_wpg _ _ _ _ _ _ _ _ _ [] _ rfl hdir hscan ?_)
  intro fs₁ hdir₁
  rw [List.nil_append] at hdir₁
  have hsame : List.Forall₂ Cutting (l.filter kept) (l.filter kept) :=
    List.forall₂_same.mpr fun q _ => Or.inl rfl
  have hC₁ : C fs₁ := hcut fs₁ _ hsame hdir₁
  simp only [Status.ok_OK, Bool.not_true, Bool.false_eq_true, if_false]
  rw [← List.map_reverse, mountTables_kept, List.filter_reverse]
  refine Prog.wpg_bind (mountTables_wpg rfl hdir₁ (List.reverse_subset.mpr (List.Subset.refl _)) hC₁ ?_ ?_ ?_)
  · intro b hb f hf
    rw [htables] at hb
    exact hfault b (List.mem_reverse.mp hb) f hf
  · intro b hb s hs db' _
    rw [htables] at hb
    have hbad := Table.load_error hs
    simp only [hbad, Bool.not_false, if_true]
    exact Prog.wpg_ret hC₁ (herror fs₁ _ s db' hbad hsame hdir₁
      (Or.inl ⟨b, List.mem_reverse.mp hb, hs⟩))
  · intro tables hopens
    rw [htables] at hopens
    simp only [Status.ok_OK, Bool.not_true, Bool.false_eq_true, if_false]
    by_cases hmax : maxLogNumber 0 l = 0
    · -- no log: a new one is created
      rw [if_neg (not_not.mpr hmax)]
      have hnumber : nextNumber (DBImpl.new dbname).next_file_number l = nextNumber 1 l := rfl
      have hpath : logFileName (DBImpl.new dbname).dbname (nextNumber 1 l) =
          fileName dbname ⟨nextNumber 1 l, .kLogFile⟩ := logFileName_eq _ _
      have hfresh : ∀ p ∈ l.filter kept, p.1.number < nextNumber 1 l := fun p hp =>
        hnext₂ p (List.mem_of_mem_filter hp)
      have hnotmem : fileName dbname ⟨nextNumber 1 l, .kLogFile⟩ ∉ fs₁ := by
        intro hmem
        obtain ⟨b, hb⟩ := (hdir₁.mem_iff (f := ⟨nextNumber 1 l, .kLogFile⟩) (by
          show nextNumber 1 l < 2 ^ 64
          omega)).mp hmem
        exact absurd (hfresh _ hb) (lt_irrefl _)
      have hdir₂ := hdir₁.insert_new (f := ⟨nextNumber 1 l, .kLogFile⟩) (by
        show nextNumber 1 l < 2 ^ 64
        omega) hfresh []
      have hC₂ := hnew hmax _ hdir₂
      simp only [hnumber, hpath]
      refine op_wpg hC₁ (Or.inl rfl) (congrArg (fun w => some (true, w)) (if_neg hnotmem)) (fun _ h => h) ?_
      rw [if_neg (by simp)]
      refine Prog.wpg_ret hC₂ (hok _ (l.filter kept ++ [(⟨nextNumber 1 l, .kLogFile⟩, [])]) _ ?_)
      refine ⟨hdir₂, rfl, ?_, ⟨[], ?_, congrArg some hpath.symm, by rw [← hpath]; rfl⟩,
        Or.inl ⟨hmax, rfl, rfl, Nat.mod_eq_of_lt hnext, rfl, rfl⟩⟩
      · exact hopens
      · exact List.mem_append_right _ (List.mem_singleton.mpr rfl)
    · -- the logs are replayed
      rw [if_pos hmax, replayLogs_kept]
      refine Prog.wpg_bind (@replayLogs_wpg _ _ _ _ _ _ _ _ _ [] _ rfl hdir₁ hcut ?_ ?_)
      · intro fs₂ l₂ b db' seq' hb hstatus hcutting hdir₂
        rw [hlogs] at hb
        simp only [hstatus, Bool.not_false, if_true]
        exact Prog.wpg_ret (hcut fs₂ l₂ hcutting hdir₂)
          (herror fs₂ l₂ _ db' hstatus hcutting hdir₂ (Or.inr ⟨b, hb, rfl⟩))
      · intro fs₂ l₂ db' hcuts hdir₂ hrep
        rw [List.nil_append] at hdir₂
        simp only [Status.ok_OK, Bool.not_true, Bool.false_eq_true, if_false]
        refine Prog.wpg_ret (hcut fs₂ l₂ (hcuts.imp fun _ _ => Cut.cutting) hdir₂) (hok fs₂ l₂ _ ?_)
        -- the log with the greatest number is among the files and was cut
        obtain ⟨b, hb⟩ := (maxLogNumber_cases 0 l).resolve_left hmax
        have hbkept : (⟨maxLogNumber 0 l, .kLogFile⟩, b) ∈ l.filter kept :=
          List.mem_filter.mpr ⟨hb, rfl⟩
        obtain ⟨p', hp', hcutp⟩ := exists_of_forall₂ hcuts hbkept
        rw [Cut, if_pos rfl] at hcutp
        obtain ⟨f', b'⟩ := p'
        obtain rfl : f' = ⟨maxLogNumber 0 l, .kLogFile⟩ := hcutp.2.1
        obtain ⟨hnum', hfile', hlog'⟩ := hrep.current b' hp'
        refine ⟨hdir₂, hrep.name_eq, hrep.tables.symm ▸ hopens, ⟨b', ?_, ?_, ?_⟩,
          Or.inr ⟨hmax, hcuts, hnum', hrep.next_file_number, ?_, ?_⟩⟩
        · rw [hnum']
          exact hp'
        · rw [hnum']
          exact hfile'
        · rw [hnum']
          exact hlog'
        · rw [hrep.mem, logCalls, hlogs]
          rfl
        · rw [lastMaxSeq, lastMaxSeq, hlogs]

/-- **What opening a directory does.** -/
theorem openDB_wpg {Q : Except Status DBImpl → FileSystem → Prop} {l : List FileEntry}
    (hdir : Dir dbname fs l) (hnum : ∀ p ∈ l, p.1.number + 2 < 2 ^ 64)
    (hscan : ∀ fs' pre post, l = pre ++ post → Dir dbname fs' (pre.filter kept ++ post) → C fs')
    (hcut : ∀ fs' l', List.Forall₂ Cutting (l.filter kept) l' → Dir dbname fs' l' → C fs')
    (hnew : maxLogNumber 0 l = 0 → ∀ fs',
      Dir dbname fs' (l.filter kept ++ [(⟨nextNumber 1 l, .kLogFile⟩, [])]) → C fs')
    (hfault : ∀ b ∈ tableContents l, ∀ f, Table.load (RFile.ofBytes b) = .error f → E)
    (herror : ∀ fs' l' s, s.ok = false → List.Forall₂ Cutting (l.filter kept) l' → Dir dbname fs' l' →
      ((∃ b ∈ tableContents l, Table.load (RFile.ofBytes b) = .ok (.error s)) ∨
        ∃ b ∈ logContents l, s = DBImpl.replayStatus b) → Q (.error s) fs')
    (hok : ∀ fs' l' db, Opened dbname fs' l l' db → Q (.ok db) fs') :
    (DBImpl.openDB dbname).wpg (disk room) (Safe true) E Q C fs := by
  refine Prog.wpg_bind (init_wpg hdir hnum hscan hcut hnew hfault ?_ ?_)
  · intro fs' l' s db hs hcutting hdir' hwhy
    have hC := hcut fs' l' hcutting hdir'
    simp only [hs, Bool.not_false, if_true]
    exact close_wpg hC (Prog.wpg_ret hC (herror fs' l' s hs hcutting hdir' hwhy))
  · intro fs' l' db hopened
    have hC : C fs' := by
      rcases hopened.contents with ⟨hmax, rfl, -⟩ | ⟨-, hcuts, -⟩
      · exact hnew hmax fs' hopened.dir
      · exact hcut fs' l' (hcuts.imp fun _ _ => Cut.cutting) hopened.dir
    simp only [Status.ok_OK, Bool.not_true, Bool.false_eq_true, if_false]
    exact Prog.wpg_ret hC (hok fs' l' db hopened)

end
end MiniLevelDB
