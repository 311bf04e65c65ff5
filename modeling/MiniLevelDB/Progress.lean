import MiniLevelDB.Worlds

/-! # Calls run to their end

On the disk with limited file sizes only an append can be without an outcome.  Opening a directory
appends nothing, and a write appends to the log and, when it flushes, to the temporary table: with room
for these the calls run to their end. -/

namespace MiniLevelDB

open Effect Posix
open LogWriter (recordBytes)

/-! ### Appends -/

/-- The call is no append. -/
def NoAppend : FileOp → Prop
  | .fwrite _ _ => False
  | _ => True

/-- If the call is an append, it is one to this file. -/
def AppendsTo (file : FILE) : FileOp → Prop
  | .fwrite f _ => f = file
  | _ => True

/-- The call is one of a stream that is written to this file. -/
def OnStream (file : FILE) : FileOp → Prop
  | .fwrite f _ => f = file
  | .fflush f => f = file
  | .fclose f => f = file
  | .ftell f => f = file
  | _ => False

theorem OnStream.appendsTo {file : FILE} {o : FileOp} (h : OnStream file o) : AppendsTo file o := by
  cases o with
  | fwrite f data => exact h
  | _ => exact trivial

theorem exists_append {o : FileOp} (h : ¬ NoAppend o) : ∃ file data, o = .fwrite file data := by
  cases o with
  | fwrite file data => exact ⟨file, data, rfl⟩
  | _ => exact absurd trivial h

theorem ok_isSome_of_noAppend {room : ℕ → Bool} (fs : FileSystem) (o : FileOp) (h : NoAppend o) :
    (FileSystem.ok room fs o).isSome = true := by
  cases o with
  | fwrite file data => exact h.elim
  | fopen path mode => cases mode <;> rfl
  | rename old new =>
      simp only [FileSystem.ok]
      split <;> rfl
  | remove path =>
      simp only [FileSystem.ok]
      split <;> rfl
  | _ => rfl

section

variable {room : ℕ → Bool} {α β : Type} {p : FileProg α} {Q : α → FileSystem → Prop}
  {C : FileSystem → Prop} {fs : FileSystem}

/-- A program that appends to one file, for which there is room at every moment. -/
theorem run_of_wp_appends {file : FILE} (hp : p.Only (AppendsTo file)) (h : p.wp (disk room) Q C fs)
    (hroom : ∀ fs', C fs' → room (fs'.get file).length = true) :
    ∃ a fs', p.run (disk room) fs = .done a fs' ∧ Q a fs' := by
  induction p generalizing fs with
  | ret b => exact ⟨b, fs, rfl, h.2⟩
  | call o k ih =>
      have hsome : ((disk room).ok fs o).isSome = true := by
        by_cases hno : NoAppend o
        · exact ok_isSome_of_noAppend fs o hno
        · obtain ⟨f, data, rfl⟩ := exists_append hno
          obtain rfl : f = file := hp.1
          have htorn : C (fs.append f data) := h.2.1 _ ⟨data.length, by rw [List.take_length]⟩
          have hfits := hroom _ htorn
          rw [FileSystem.get_append, List.length_append] at hfits
          simp only [disk, FileSystem.ok, if_pos hfits, Option.isSome_some]
      obtain ⟨r, hr⟩ := Option.isSome_iff_exists.mp hsome
      rw [Prog.run_call _ hr]
      exact ih _ (hp.2 _) (h.2.2 _ _ hr)
  | fault f => exact h.elim

theorem appendsTo_fwrite (file data : Bytes) : AppendsTo file (.fwrite file data) := rfl

theorem onStream_fwrite (file data : Bytes) : OnStream file (.fwrite file data) := rfl
theorem onStream_fflush (file : Bytes) : OnStream file (.fflush file) := rfl
theorem onStream_fclose (file : Bytes) : OnStream file (.fclose file) := rfl
theorem onStream_ftell (file : Bytes) : OnStream file (.ftell file) := rfl

theorem gives_call {P : FileOp → Prop} {R : β → Prop} {o : FileOp} {k : o.Res → FileProg β} (h : P o)
    (hk : ∀ r, (k r).Gives P R) : (Prog.op o >>= k).Gives P R := ⟨h, hk⟩

theorem only_call {P : FileOp → Prop} {o : FileOp} {k : o.Res → FileProg β} (h : P o)
    (hk : ∀ r, (k r).Only P) : (Prog.op o >>= k).Only P := ⟨h, hk⟩

end

/-! ### Opening appends nothing -/

theorem openTable_noAppend (fname : Bytes) : (Table.openTable fname).Only NoAppend := by
  apply only_call trivial
  intro opened
  split
  · trivial
  · apply only_call trivial
    intro file
    split
    · trivial
    · exact only_call trivial fun _ => trivial
    · trivial

theorem listFiles_noAppend (dbname : Bytes) : (listFiles dbname).Only NoAppend := by
  apply only_call trivial
  intro r
  cases r with
  | none => trivial
  | some names => trivial

namespace DBImpl

theorem scanFiles_noAppend (db : DBImpl) (n : ℕ) (files : List FileInfo) :
    (db.scanFiles n files).Only NoAppend := by
  induction files generalizing db n with
  | nil => trivial
  | cons f files ih =>
      unfold scanFiles
      dsimp only
      split
      · apply only_call trivial
        intro removed
        split
        · trivial
        · exact ih _ _
      · exact ih _ _
      · exact ih _ _

theorem mountTables_noAppend (db : DBImpl) (files : List FileInfo) :
    (db.mountTables files).Only NoAppend := by
  induction files generalizing db with
  | nil => trivial
  | cons f files ih =>
      unfold mountTables
      split
      · exact ih db
      · apply (openTable_noAppend _).bind
        intro r
        cases r with
        | error s => trivial
        | ok table => exact ih _

theorem recover_noAppend (db : DBImpl) (file : FILE) (seq : ℕ) : (db.recover file seq).Only NoAppend := by
  apply only_call trivial
  intro f
  dsimp only
  split
  · trivial
  · apply only_call trivial
    intro done
    split <;> trivial

theorem replayLogs_noAppend (db : DBImpl) (n seq : ℕ) (files : List FileInfo) :
    (db.replayLogs n seq files).Only NoAppend := by
  induction files generalizing db seq with
  | nil => trivial
  | cons f files ih =>
      unfold replayLogs
      split
      · exact ih _ _
      · apply only_call trivial
        intro opened
        split
        · trivial
        · apply (recover_noAppend _ _ _).bind
          rintro ⟨s, db', seq'⟩
          dsimp only
          split
          · exact only_call trivial fun _ => trivial
          · split
            · exact only_call trivial fun _ => ih _ _
            · exact only_call trivial fun _ => ih _ _

theorem close_noAppend (db : DBImpl) : db.close.Only NoAppend := by
  unfold close
  split
  · trivial
  · exact only_call trivial fun _ => only_call trivial fun _ => trivial

theorem init_noAppend (db : DBImpl) : db.init.Only NoAppend := by
  unfold init
  apply only_call trivial
  intro _
  apply Prog.Only.bind (listFiles_noAppend _)
  intro r
  cases r with
  | error s => trivial
  | ok files =>
      apply (scanFiles_noAppend _ _ _).bind
      rintro ⟨s, db₁, n⟩
      dsimp only
      split
      · trivial
      · apply (mountTables_noAppend _ _).bind
        rintro ⟨s, db₂⟩
        dsimp only
        split
        · trivial
        · split
          · apply (replayLogs_noAppend _ _ _ _).bind
            rintro ⟨s, db₃, seq⟩
            dsimp only
            split <;> trivial
          · apply only_call trivial
            intro opened
            split <;> trivial

theorem openDB_noAppend (name : Bytes) : (openDB name).Only NoAppend := by
  apply (init_noAppend _).bind
  rintro ⟨s, db⟩
  dsimp only
  split
  · exact (close_noAppend db).bind fun _ => trivial
  · trivial

end DBImpl

/-! ### Appends to the log and to a table -/

namespace LogWriter

theorem padTail_appends (w : LogWriter) : w.padTail.Only (AppendsTo w.file) := by
  unfold padTail
  dsimp only
  split
  · exact only_call (appendsTo_fwrite _ _) fun _ => trivial
  · trivial

theorem emitPhysicalRecord_appends (w : LogWriter) (type : RecordType) (ptr : Bytes) :
    (w.emitPhysicalRecord type ptr).Only (AppendsTo w.file) := by
  apply only_call (appendsTo_fwrite _ _)
  intro n
  split
  · trivial
  · split
    · apply only_call (appendsTo_fwrite _ _)
      intro m
      split <;> trivial
    · trivial

theorem addFragments_appends (w : LogWriter) (ptr : Bytes) (first : Bool) :
    (w.addFragments ptr first).Only (AppendsTo w.file) := by
  induction w, ptr, first using addFragments.induct with
  | case1 w ptr first ih =>
      have hfile := w.skipTail_file
      rw [addFragments]
      apply (padTail_appends w).bind
      intro padded
      split
      · rw [← hfile]
        apply (emitPhysicalRecord_appends _ _ _).bind
        intro s
        split
        · split
          · next hlt => exact ih hlt
          · exact only_call trivial fun _ => trivial
        · trivial
      · trivial

/-- `AddRecord` runs to its end where the file has room for the record. -/
theorem addRecord_run {w : LogWriter} {data : Bytes} {fs : FileSystem}
    (hstep : w.InStep (fs.get w.file).length)
    (hroom : (fs.get w.file).length + (recordBytes (fs.get w.file).length data).length < 2 ^ 63) :
    ∃ w', w'.file = w.file ∧ (w.addRecord data).run (disk offsetLimit) fs =
      .done (Status.OK, w') (fs.append w.file (recordBytes (fs.get w.file).length data)) := by
  have hprefix : ∀ x, x <+: recordBytes (fs.get w.file).length data →
      ((fs.append w.file x).get w.file).length < 2 ^ 63 := by
    intro x hx
    have := hx.length_le
    rw [FileSystem.get_append, List.length_append]
    omega
  have hwp : (w.addRecord data).wp (disk offsetLimit)
      (fun r fs' => r.1 = Status.OK ∧ r.2.file = w.file ∧
        fs' = fs.append w.file (recordBytes (fs.get w.file).length data))
      (fun fs' => (fs'.get w.file).length < 2 ^ 63) fs :=
    addRecord_wp hstep (by omega) hprefix fun w' hw' _ => ⟨rfl, hw', rfl⟩
  obtain ⟨⟨s, w'⟩, fs', hrun, rfl, hw', rfl⟩ := run_of_wp_appends (addFragments_appends w data true) hwp
    fun fs' hlt => decide_eq_true hlt
  exact ⟨w', hw', hrun⟩

end LogWriter

namespace TableBuilder

/-- The builder writes to this file. -/
def On (file : FILE) (r : Status × TableBuilder) : Prop := r.2.file = file

theorem writeBlock_onStream (file : FILE) (contents : Bytes) :
    (writeBlock file contents).Gives (OnStream file) fun _ => True := by
  apply gives_call (onStream_ftell file)
  intro off
  cases off with
  | none => trivial
  | some off =>
      apply gives_call (onStream_fwrite _ _)
      intro n
      split
      · trivial
      · apply gives_call (onStream_fwrite _ _)
        intro n
        split <;> trivial

variable {b : TableBuilder} {file : FILE}

theorem flushDataBlock_onStream (hb : b.file = file) : b.flushDataBlock.Gives (OnStream file) (On file) := by
  unfold flushDataBlock
  split
  · exact hb
  · dsimp only
    rw [hb]
    apply (writeBlock_onStream _ _).bind
    rintro ⟨s, handle⟩ -
    dsimp only
    split <;> exact rfl

theorem add_onStream (hb : b.file = file) (key value : Bytes) :
    (b.add key value).Gives (OnStream file) (On file) := by
  unfold add
  split
  · exact hb
  · dsimp only
    split
    · exact flushDataBlock_onStream hb
    · exact hb

theorem finish_onStream (hb : b.file = file) : b.finish.Gives (OnStream file) (On file) := by
  unfold finish
  split
  · exact hb
  · apply (flushDataBlock_onStream hb).bind
    rintro ⟨s, b'⟩ hb'
    obtain rfl : b'.file = file := hb'
    dsimp only
    split
    · exact rfl
    · apply (writeBlock_onStream _ _).bind
      rintro ⟨s', handle⟩ -
      dsimp only
      split
      · exact rfl
      · apply gives_call (onStream_fwrite _ _)
        intro n
        split
        · exact rfl
        · exact gives_call (onStream_fflush _) fun _ => rfl

theorem buildFrom_onStream (hb : b.file = file) (es : List Entry) :
    (b.buildFrom es).Gives (OnStream file) (On file) := by
  induction es generalizing b with
  | nil => exact finish_onStream hb
  | cons e es ih =>
      apply (add_onStream hb _ _).bind
      rintro ⟨s, b'⟩ hb'
      dsimp only
      split
      · exact hb'
      · exact ih hb'

/-- A table is written to its end where files may have its size. -/
theorem buildFrom_run {fs : FileSystem} {es : List Entry} (hlen : (tableBytes es).length < 2 ^ 63) :
    ∃ b, ((new file).buildFrom es).run (disk offsetLimit) (fs.insert file []) =
      .done (Status.OK, b) (fs.insert file (tableBytes es)) := by
  have hwp : ((new file).buildFrom es).wp (disk offsetLimit)
      (fun r fs' => r.1 = Status.OK ∧ fs' = fs.insert file (tableBytes es))
      (fun fs' => (fs'.get file).length < 2 ^ 63) (fs.insert file []) := by
    apply buildFrom_new_wp
    · intro x hx
      rw [FileSystem.get_insert]
      omega
    · exact fun b' _ _ _ => ⟨rfl, rfl⟩
  have honly := (buildFrom_onStream (rfl : (new file).file = file) es).only.mono fun _ => OnStream.appendsTo
  obtain ⟨⟨s, b⟩, fs', hrun, rfl, rfl⟩ :=
    run_of_wp_appends honly hwp fun fs' hlt => decide_eq_true hlt
  exact ⟨b, hrun⟩

end TableBuilder

/-! ### The calls -/

namespace DBImpl

theorem replaceLog_noAppend (db : DBImpl) (file : FILE) (n : ℕ) : (db.replaceLog file n).Only NoAppend := by
  unfold replaceLog
  apply only_call trivial
  intro _
  apply only_call trivial
  intro closed
  dsimp only
  split
  · trivial
  · apply only_call trivial
    intro removed
    split
    · trivial
    · apply only_call trivial
      intro opened
      split <;> trivial

section

variable {db : DBImpl} {fs : FileSystem} {G : FileSystem → FileOp → Prop}
  {Q : Status × DBImpl → FileSystem → Prop} {C : FileSystem → Prop}

/-- A flush of a memtable that is not empty builds its table in a new file, and appends nothing more. -/
theorem flushMemTable_eq (h : db.mem.table ≠ []) :
    ∃ (r : Status × DBImpl) (k : Status × TableBuilder → FileProg (Status × DBImpl)),
      (∀ built, (k built).Only NoAppend) ∧ db.flushMemTable =
        (fopen (tempFileName db.dbname db.next_file_number) .wb >>= fun opened =>
          if !opened then .ret r
          else
            (TableBuilder.new (tempFileName db.dbname db.next_file_number)).buildFrom db.mem.table >>= k) := by
  unfold flushMemTable
  rw [if_neg h]
  refine ⟨_, _, ?_, rfl⟩
  rintro ⟨s, builder⟩
  apply only_call trivial
  intro _
  apply only_call trivial
  intro _
  dsimp only
  split
  · trivial
  · apply only_call trivial
    intro renamed
    split
    · trivial
    · apply (openTable_noAppend _).bind
      intro r
      cases r with
      | error s => trivial
      | ok table =>
          dsimp only
          split
          · trivial
          · exact replaceLog_noAppend _ _ _

/-- A flush that does not fault runs to its end where files may have the size of the table. -/
theorem flushMemTable_done (h : db.flushMemTable.wpg (disk offsetLimit) G False Q C fs)
    (hlen : (tableBytes db.mem.table).length < 2 ^ 63) :
    ∃ r fs', db.flushMemTable.run (disk offsetLimit) fs = .done r fs' ∧ Q r fs' := by
  by_cases hmem : db.mem.table = []
  · unfold flushMemTable at h ⊢
    rw [if_pos hmem] at h ⊢
    exact ⟨_, fs, rfl, h.2⟩
  · obtain ⟨r, k, hk, heq⟩ := flushMemTable_eq hmem
    rw [heq] at h ⊢
    have hopen : (fopen (tempFileName db.dbname db.next_file_number) .wb).run (disk offsetLimit) fs =
        .done true (fs.insert (tempFileName db.dbname db.next_file_number) []) := rfl
    rw [Prog.run_bind_done _ hopen]
    have h := Prog.wpg_of_bind_run h hopen
    rw [if_neg (by simp)] at h ⊢
    obtain ⟨builder, hbuild⟩ := @TableBuilder.buildFrom_run
      (tempFileName db.dbname db.next_file_number) fs _ hlen
    rw [Prog.run_bind_done _ hbuild]
    exact Prog.run_of_wpg_only ok_isSome_of_noAppend (hk _) (Prog.wpg_of_bind_run h hbuild)

/-- A write that does not fault runs to its end where the files have room. -/
theorem write_done {batch : WriteBatch} {w : LogWriter}
    (h : (db.write batch).wpg (disk offsetLimit) G False Q C fs) (hw : db.log = some w)
    (hstep : w.InStep (fs.get w.file).length)
    (hroom : (fs.get w.file).length + (recordBytes (fs.get w.file).length
      (batch.set_sequence ((db.last_seq + 1) % 2 ^ 64)).rep).length < 2 ^ 63)
    (hlen : (tableBytes (db.mem.insertAll
      (batch.set_sequence ((db.last_seq + 1) % 2 ^ 64)).iterate.2).table).length < 2 ^ 63) :
    ∃ r fs', (db.write batch).run (disk offsetLimit) fs = .done r fs' ∧ Q r fs' := by
  unfold write at h ⊢
  rw [hw] at h ⊢
  dsimp only at h ⊢
  obtain ⟨w', -, hrun⟩ := LogWriter.addRecord_run hstep hroom
  rw [Prog.run_bind_done _ hrun]
  have h := Prog.wpg_of_bind_run h hrun
  simp only [Status.ok_OK, Bool.not_true, Bool.false_eq_true, if_false] at h ⊢
  split_ifs at h ⊢ with hiter hfull
  · exact ⟨_, _, rfl, h.2⟩
  · exact flushMemTable_done h hlen
  · exact ⟨_, _, rfl, h.2⟩

end

end DBImpl

/-- The record of a write is appended to the log. -/
theorem Standing.exists_addRecord {dbname : Bytes} {fs : FileSystem} {l : List FileEntry} {db : DBImpl}
    {b : Bytes} (hst : Standing dbname fs l b db) (op : WriteOp)
    (hroom : b.length + (recordBytes b.length (db.batchOf op).rep).length < 2 ^ 63) :
    ∃ w w' fs₁, db.log = some w ∧
      (w.addRecord (db.batchOf op).rep).run (disk offsetLimit) fs = .done (Status.OK, w') fs₁ ∧
      Dir dbname fs₁ (db.logged b op l) := by
  obtain ⟨w, hw, hfile, hstep⟩ := hst.log
  have hget : fs.get w.file = b := by
    rw [hfile, logFileName_eq]
    exact hst.dir.get_eq hst.log_mem
  rw [← hget] at hstep hroom
  obtain ⟨w', -, hrun⟩ := LogWriter.addRecord_run hstep hroom
  refine ⟨w, w', _, hw, hrun, ?_⟩
  rw [FileSystem.append, hget, hfile, logFileName_eq]
  exact hst.dir.set hst.log_mem _

/-- A write whose record has been logged is applied. -/
theorem DBImpl.logAndApply_run {W : Type} {dev : Device FileOp FileOp.Res W} {db : DBImpl} {op : WriteOp}
    {w w' : LogWriter} {v v' : W} (hw : db.log = some w)
    (hrun : (w.addRecord (db.batchOf op).rep).run dev v = .done (Status.OK, w') v')
    (hiter : (db.batchOf op).iterate.1.ok = true) :
    ∃ db', (db.logAndApply (WriteBatch.ofOp op)).run dev v = .done (Status.OK, db') v' ∧
      db'.mem = db.memAfter op ∧ db'.log = some w' := by
  unfold logAndApply
  rw [hw]
  dsimp only
  rw [← DBImpl.batchOf, Prog.run_bind_done _ hrun]
  simp only [Status.ok_OK, Bool.not_true, Bool.false_eq_true, if_false, hiter]
  exact ⟨_, rfl, rfl, rfl⟩

/-- A write is logged and applied. -/
theorem Standing.exists_logAndApply {dbname : Bytes} {fs : FileSystem} {l : List FileEntry} {db : DBImpl}
    {b : Bytes} (hst : Standing dbname fs l b db) (op : WriteOp)
    (hroom : b.length + (recordBytes b.length (db.batchOf op).rep).length < 2 ^ 63)
    (hiter : (db.batchOf op).iterate.1.ok = true) :
    ∃ db' fs', (db.logAndApply (WriteBatch.ofOp op)).run (disk offsetLimit) fs = .done (Status.OK, db') fs' ∧
      db'.mem = db.memAfter op := by
  obtain ⟨w, w', fs₁, hw, hrun, -⟩ := hst.exists_addRecord op hroom
  obtain ⟨db', happly, hmem, -⟩ := DBImpl.logAndApply_run hw hrun hiter
  exact ⟨db', fs₁, happly, hmem⟩

/-- The files have room for what a call appends. -/
def HasRoom (l : List FileEntry) : Option DBImpl → Call → Prop
  | some db, .perform op =>
      (∀ b, (⟨db.log_number, .kLogFile⟩, b) ∈ l →
        b.length + (recordBytes b.length (db.batchOf op).rep).length < 2 ^ 63) ∧
      (tableBytes (db.memAfter op).table).length < 2 ^ 63
  | some db, .flush => (tableBytes db.mem.table).length < 2 ^ 63
  | _, _ => True

/-- **A call that does not fault ends**, where the files have room. -/
theorem call_done {dbname : Bytes} {w : World} {l : List FileEntry} {call : Call}
    {p : FileProg (Status × Option DBImpl)} (h : Rests dbname w l) (hroom : LeavesRoom dbname w)
    (hp : call.program dbname w.db = some p) (hfault : ¬ Faults l w.db call)
    (hhas : HasRoom l w.db call) :
    ∃ s db' fs', p.run (disk offsetLimit) w.fs = .done (s, db') fs' ∧
      CallEnds dbname l w.db call (s, db') fs' := by
  have hwpg := Prog.wpg_mono (call_wpg h hroom hp) (fun _ _ hG => hG) hfault (fun _ _ hQ => hQ)
    (fun _ hC => hC)
  obtain ⟨fs, open?⟩ := w
  have hnoAppend : p.Only NoAppend → ∃ s db' fs', p.run (disk offsetLimit) fs = .done (s, db') fs' ∧
      CallEnds dbname l open? call (s, db') fs' := by
    intro honly
    obtain ⟨⟨s, db'⟩, fs', hrun, hends⟩ := Prog.run_of_wpg_only ok_isSome_of_noAppend honly hwpg
    exact ⟨s, db', fs', hrun, hends⟩
  cases open? with
  | none =>
      cases call with
      | openDB =>
          obtain rfl := Option.some.inj hp
          apply hnoAppend
          apply (DBImpl.openDB_noAppend dbname).bind
          intro r
          cases r <;> trivial
      | perform op => cases hp
      | flush => cases hp
      | close => cases hp
  | some db =>
      obtain ⟨b, hst⟩ := h.2 db rfl
      cases call with
      | openDB => cases hp
      | perform op =>
          obtain rfl := Option.some.inj hp
          obtain ⟨wr, hwr, hfile, hstep⟩ := hst.log
          have hget : FileSystem.get fs wr.file = b := by
            rw [hfile, logFileName_eq]
            exact hst.dir.get_eq hst.log_mem
          obtain ⟨hlog, hlen⟩ := hhas
          have hlogb := hlog b hst.log_mem
          rw [← hget] at hstep hlogb
          rw [DBImpl.perform_eq] at hwpg ⊢
          obtain ⟨⟨s, db'⟩, fs', hrun, hret⟩ := DBImpl.write_done (Prog.wpg_of_bind hwpg) hwr hstep hlogb hlen
          exact ⟨s, some db', fs', Prog.run_bind_done _ hrun, hret.2⟩
      | flush =>
          obtain rfl := Option.some.inj hp
          obtain ⟨⟨s, db'⟩, fs', hrun, hret⟩ := DBImpl.flushMemTable_done (Prog.wpg_of_bind hwpg) hhas
          exact ⟨s, some db', fs', Prog.run_bind_done _ hrun, hret.2⟩
      | close =>
          obtain rfl := Option.some.inj hp
          apply hnoAppend
          exact (DBImpl.close_noAppend db).bind fun _ => trivial

end MiniLevelDB
