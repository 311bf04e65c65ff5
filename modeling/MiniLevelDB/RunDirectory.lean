import MiniLevelDB.Sizes

/-! # The directory in every run

Between the calls an open database knows the files of its directory (`Between`), and inside a call there is
one log at most, no table is lost, and no file is created or renamed over another (`run_directory`). -/

namespace MiniLevelDB

open Effect

theorem Dir.ofType_ascending {dbname : Bytes} {fs : FileSystem} {l : List FileEntry}
    (h : Dir dbname fs l) (type : FileType) : (ofType type l).Pairwise fun s t => s.1 < t.1 := by
  apply List.Pairwise.filterMap _ _ h.sorted
  intro p q hlt p' hp q' hq
  simp only [Option.ite_none_right_eq_some, Option.some.injEq] at hp hq
  rw [← hp.2, ← hq.2]
  exact hlt

/-- What is true of the files and of the database on them between the calls. -/
structure Between (dbname : Bytes) (w : World) (l : List FileEntry) : Prop where
  dir : Dir dbname w.fs l
  one_log : (ofType .kLogFile l).length ≤ 1
  number : ∀ db, w.db = some db → ∀ p ∈ l, p.1.number < db.next_file_number
  log : ∀ db, w.db = some db → ∃ b, ofType .kLogFile l = [(db.log_number, b)]
  descending : (ofType .kTableFile l).reverse.Pairwise fun s t => t.1 < s.1
  tables : ∀ db, w.db = some db →
    List.Forall₂ (fun file table => Opens file.2 table) (ofType .kTableFile l).reverse db.tables

theorem Sound.between {dbname : Bytes} {w : World} {l : List FileEntry} (h : Sound dbname w l) :
    Between dbname w l := by
  refine ⟨h.rests.1, h.tidy.one_log, fun db hdb => h.number hdb, ?_, ?_, ?_⟩
  · intro db hdb
    obtain ⟨b, hst⟩ := h.rests.2 db hdb
    exact ⟨b, h.tidy.log_eq hst.log_mem⟩
  · rw [List.pairwise_reverse]
    exact h.rests.1.ofType_ascending .kTableFile
  · intro db hdb
    obtain ⟨b, hst⟩ := h.rests.2 db hdb
    have htables := hst.tables
    rw [tableContents, ← List.map_reverse, List.forall₂_map_left_iff] at htables
    exact htables

/-- **The directory in every run.**  Between the calls the files are those the database knows; and at
every moment of a call there is one log at most, no table was lost or changed, the new one has a number
above all others, and no file is created or renamed over one that is there. -/
theorem run_directory {dbname : Bytes} {w : World} {made : List (Call × Option Status)}
    (h : Reach dbname (fun w _ => LeavesRoom dbname w) w made) :
    ∃ l, Between dbname w l ∧ ∀ (call : Call) (p : FileProg (Status × Option DBImpl)),
      LeavesRoom dbname w → call.program dbname w.db = some p →
      (∀ fs, p.Crash (disk offsetLimit) w.fs fs →
        ∃ l', Dir dbname fs l' ∧ (ofType .kLogFile l').length ≤ 1 ∧ Grows l l') ∧
      (∀ o fs, p.Calls (disk offsetLimit) w.fs o fs → Safe call.reopens fs o) ∧
      ∀ s db fs, p.run (disk offsetLimit) w.fs = .done (s, db) fs →
        ∃ l', Between dbname ⟨fs, db⟩ l' ∧ Grows l l' := by
  obtain ⟨l, hsound⟩ := reach_sound h
  refine ⟨l, hsound.between, ?_⟩
  intro call p hroom hp
  have hwpg := call_wpg hsound.rests hroom hp
  refine ⟨?_, ?_, ?_⟩
  · intro fs hcrash
    obtain ⟨l', hdir', hleaves⟩ := Prog.wpg_crash hwpg hcrash
    obtain ⟨htidy, hgrows⟩ := leaves_tidy hsound hroom hleaves
    exact ⟨l', hdir', htidy.one_log, hgrows⟩
  · intro o fs hcalls
    exact Prog.wpg_calls hwpg hcalls
  · intro s db fs hrun
    obtain ⟨l', hdir', hends⟩ := Prog.wpg_run hwpg hrun
    obtain ⟨hsound', hgrows⟩ := ends_sound hsound hroom hdir' hends
    exact ⟨l', hsound'.between, hgrows⟩

theorem admits_leavesRoom (dbname : Bytes) : Admits dbname fun w _ => LeavesRoom dbname w :=
  fun hsteady hn _ _ _ => hsteady.numbered.leavesRoom hsteady.holds.sound.rests.1 (by omega)

/-- Behind a flush, a write that a crash cut off, and opening again: the next flush. -/
theorem run_directory_resumed :
    ∃ (w : World) (db : DBImpl) (l : List FileEntry) (p : FileProg (Status × Option DBImpl)),
      Reach (ascii "db") (fun w _ => LeavesRoom (ascii "db") w) w
          (cutOffCalls ++ [(.openDB, some Status.OK)]) ∧
        w.db = some db ∧ db.mem.table ≠ [] ∧ ofType .kTableFile l ≠ [] ∧
        Call.flush.program (ascii "db") w.db = some p ∧ Between (ascii "db") w l ∧
        (∀ fs, p.Crash (disk offsetLimit) w.fs fs →
          ∃ l', Dir (ascii "db") fs l' ∧ (ofType .kLogFile l').length ≤ 1 ∧ Grows l l') ∧
        (∀ o fs, p.Calls (disk offsetLimit) w.fs o fs → Safe false fs o) ∧
        ∀ s db fs, p.run (disk offsetLimit) w.fs = .done (s, db) fs →
          ∃ l', Between (ascii "db") ⟨fs, db⟩ l' ∧ Grows l l' := by
  obtain ⟨fs, db, l, hreach, hsteady, -⟩ := exists_resumed Dir.empty (admits_leavesRoom (ascii "db"))
  obtain ⟨l', hbetween, hcalls⟩ := run_directory hreach
  obtain rfl := hsteady.holds.sound.rests.1.unique hbetween.dir
  have hp : Call.flush.program (ascii "db") (some db) = some _ := rfl
  have hroom : LeavesRoom (ascii "db") ⟨fs, some db⟩ :=
    hsteady.numbered.leavesRoom hsteady.holds.sound.rests.1 (by decide)
  refine ⟨_, db, l, _, hreach, rfl, ?_, ?_, hp, hbetween, hcalls .flush _ hroom hp⟩
  · rw [(hsteady.holds.serving db rfl).mem]
    decide
  · have htables := hsteady.holds.stores.tables
    intro hnil
    rw [tableContents, hnil] at htables
    cases htables

end MiniLevelDB
