import MiniLevelDB.DbImpl
import MiniLevelDB.LogRoundTrip

/-! # Replaying a log

`DBImpl.replay` pulls records from a reader one by one.  `replayRecords` is the same loop over the
list of the records in the file (`replay_eq`), and `consumed` the records it looks at: it stops at
one that is too short for a batch, which it has then already read.  `recover_wp` says that
`Recover` leaves a log of the consumed records, the short one included; `recover_again_iff` is what
this means for the batches logged behind it. -/

namespace MiniLevelDB

open Effect Posix

namespace MemTable

theorem insertAll_append (m : MemTable) (calls calls' : List (ℕ × WriteOp)) :
    m.insertAll (calls ++ calls') = (m.insertAll calls).insertAll calls' := List.foldl_append

theorem length_insertAll (m : MemTable) (calls : List (ℕ × WriteOp)) :
    (m.insertAll calls).table.length = m.table.length + calls.length := by
  induction calls generalizing m with
  | nil => rfl
  | cons c calls ih =>
      have hadd : (m.add c.1 c.2.type c.2.key c.2.value).table.length = m.table.length + 1 :=
        List.orderedInsert_length _ _ _
      rw [insertAll, List.foldl_cons, ← insertAll, ih, hadd, List.length_cons]
      omega

end MemTable

/-- `max_seq` after a batch was replayed. -/
def WriteBatch.seqAfter (batch : WriteBatch) (seq : ℕ) : ℕ :=
  if batch.count > 0 then
    let last := (((batch.sequence : ℤ) + batch.count - 1) % 2 ^ 64).toNat
    if last > seq then last else seq
  else seq

namespace DBImpl

/-- The loop of `Recover` over the records of a file: its status, the calls to the memtable and the
greatest sequence number. -/
def replayRecords (seq : ℕ) : List Bytes → Status × List (ℕ × WriteOp) × ℕ
  | [] => (Status.OK, [], seq)
  | record :: records =>
      match WriteBatch.setContents record with
      | .error _ => (Status.OK, [], seq)
      | .ok batch =>
          if !batch.iterate.1.ok then (batch.iterate.1, batch.iterate.2, seq)
          else
            let r := replayRecords (batch.seqAfter seq) records
            (r.1, batch.iterate.2 ++ r.2.1, r.2.2)

/-- The records up to the first that is too short for a batch, and that one. -/
def consumed : List Bytes → List Bytes
  | [] => []
  | record :: records => if record.length < kHeader then [record] else record :: consumed records

theorem setContents_error_iff {record : Bytes} :
    (∃ s, WriteBatch.setContents record = .error s) ↔ record.length < kHeader := by
  unfold WriteBatch.setContents
  split
  · simp [*]
  · simp [*]

theorem length_of_setContents {record : Bytes} {batch : WriteBatch}
    (h : WriteBatch.setContents record = .ok batch) : ¬ record.length < kHeader := by
  intro hlt
  obtain ⟨s, hs⟩ := setContents_error_iff.mpr hlt
  rw [hs] at h
  cases h

/-! ### The loop over the reader -/

theorem replay_of_none {r r' : LogReader} (h : r.readRecord = (none, r')) (mem : MemTable) (seq : ℕ) :
    replay r mem seq = (Status.OK, mem, seq, r') := by
  rw [replay]
  split <;> simp_all

theorem replay_of_short {r r' : LogReader} {record : Bytes} {s : Status}
    (h : r.readRecord = (some record, r')) (hs : WriteBatch.setContents record = .error s)
    (mem : MemTable) (seq : ℕ) : replay r mem seq = (Status.OK, mem, seq, r') := by
  rw [replay]
  split
  · simp_all
  · rename_i record' r'' h'
    obtain ⟨rfl, rfl⟩ : record = record' ∧ r' = r'' := by simpa [h] using h'
    simp only [hs]

theorem replay_of_batch {r r' : LogReader} {record : Bytes} {batch : WriteBatch}
    (h : r.readRecord = (some record, r')) (hb : WriteBatch.setContents record = .ok batch)
    (mem : MemTable) (seq : ℕ) :
    replay r mem seq =
      if !batch.iterate.1.ok then (batch.iterate.1, mem.insertAll batch.iterate.2, seq, r')
      else replay r' (mem.insertAll batch.iterate.2) (batch.seqAfter seq) := by
  rw [replay]
  split
  · simp_all
  · rename_i record' r'' h'
    obtain ⟨rfl, rfl⟩ : record = record' ∧ r' = r'' := by simpa [h] using h'
    simp only [hb, WriteBatch.seqAfter]
    split_ifs <;> rfl

/-- The loop over a reader is the loop over the records the reader has left. -/
theorem replay_eq (r : LogReader) (mem : MemTable) (seq : ℕ) :
    ∃ r', replay r mem seq = ((replayRecords seq r.readAll.1).1,
      mem.insertAll (replayRecords seq r.readAll.1).2.1, (replayRecords seq r.readAll.1).2.2, r') := by
  induction r using LogReader.readAll.induct generalizing mem seq with
  | case1 r r' hr =>
      refine ⟨r', ?_⟩
      rw [replay_of_none hr, LogReader.readAll_of_none hr]
      rfl
  | case2 r record r' hr hlt ih =>
      rw [LogReader.readAll_of_some hr]
      cases hb : WriteBatch.setContents record with
      | error s =>
          refine ⟨r', ?_⟩
          rw [replay_of_short hr hb]
          simp only [replayRecords, hb]
          rfl
      | ok batch =>
          rw [replay_of_batch hr hb]
          simp only [replayRecords, hb]
          by_cases hok : batch.iterate.1.ok = true
          · obtain ⟨r'', h⟩ := ih (mem.insertAll batch.iterate.2) (batch.seqAfter seq)
            refine ⟨r'', ?_⟩
            simp only [hok, Bool.not_true, Bool.false_eq_true, if_false, h, MemTable.insertAll_append]
          · refine ⟨r', ?_⟩
            simp only [hok, Bool.not_false, if_true]

/-- Where the reader stands after a replay that ends well: behind the consumed records. -/
theorem replay_walk {b : Bytes} {off last : ℕ} (hend : next b last = none) {r : LogReader}
    {es : List Event} (hat : LogReader.At b r off) (hw : Walk b off es last) (mem : MemTable) (seq : ℕ)
    (hok : (replay r mem seq).1.ok = true) :
    ∃ pre off', Walk b off pre off' ∧
      (replay r mem seq).2.2.2.valid_end = validEnd r.valid_end pre ∧
      assemble none pre = consumed (assemble none es) := by
  have hcarry : LogReader.carryOf [] false = none := rfl
  induction r using LogReader.readAll.induct generalizing off es mem seq with
  | case1 r r' hr =>
      rw [replay_of_none hr, assemble_eq_firstRecord]
      cases hf : firstRecord none es with
      | none =>
          have hspec := LogReader.readRecordLoop_none hw hend hat [] false (hcarry.symm ▸ hf)
          rw [← LogReader.readRecord, hr] at hspec
          refine ⟨es, last, hw, hspec.2, ?_⟩
          rw [assemble_eq_firstRecord, hf]
          rfl
      | some p =>
          have hspec := LogReader.readRecordLoop_some hw hat [] false (hcarry.symm ▸ hf)
          rw [← LogReader.readRecord, hr] at hspec
          exact absurd hspec.1 (by simp)
  | case2 r record r' hr hlt ih =>
      rw [assemble_eq_firstRecord]
      cases hf : firstRecord none es with
      | none =>
          have hspec := LogReader.readRecordLoop_none hw hend hat [] false (hcarry.symm ▸ hf)
          rw [← LogReader.readRecord, hr] at hspec
          exact absurd hspec.1 (by simp)
      | some p =>
          have hspec := LogReader.readRecordLoop_some hw hat [] false (hcarry.symm ▸ hf)
          rw [← LogReader.readRecord, hr] at hspec
          obtain ⟨h1, pre, off', rfl, hpre, hrest, hat', hve, hvalid, hrec, hnone, -⟩ := hspec
          obtain rfl : record = p.1 := Option.some.inj h1
          have hve : r'.valid_end = validEnd r.valid_end pre := hve.trans (hvalid _).symm
          cases hb : WriteBatch.setContents p.1 with
          | error s =>
              have hshort := setContents_error_iff.mp ⟨s, hb⟩
              rw [replay_of_short hr hb]
              exact ⟨pre, off', hpre, hve, by simp only [consumed, if_pos hshort]; exact hrec⟩
          | ok batch =>
              rw [replay_of_batch hr hb] at hok ⊢
              have hgood : batch.iterate.1.ok = true := by
                by_contra hbad
                rw [if_pos (by simpa using hbad)] at hok
                exact hbad hok
              rw [if_neg (by simpa using hgood)] at hok ⊢
              obtain ⟨pre', off'', hpre', hve', hrec'⟩ := ih hat' hrest _ _ hok
              refine ⟨pre ++ pre', off'', hpre.trans hpre', ?_, ?_⟩
              · rw [hve', hve, validEnd_append]
              · rw [assemble_append]
                rw [hcarry] at hrec hnone
                rw [hrec, hnone, hrec']
                simp only [consumed, if_neg (length_of_setContents hb)]
                rfl

/-- **What `Recover` keeps**: the file is cut to a log of the records it has consumed. -/
theorem replay_cut (b : Bytes) (mem : MemTable) (seq : ℕ)
    (hok : (replay (LogReader.new b) mem seq).1.ok = true) :
    (replay (LogReader.new b) mem seq).2.2.2.valid_end ≤ b.length ∧
      Log (b.take (replay (LogReader.new b) mem seq).2.2.2.valid_end) (consumed (readLog b).1) := by
  obtain ⟨es, hs⟩ := exists_scan b
  have hread := congrArg Prod.fst (readLog_of_scan hs)
  obtain ⟨last, hw, hend⟩ := hs
  obtain ⟨hat, hzero⟩ := LogReader.at_new b
  obtain ⟨pre, off, hpre, hve, hrec⟩ := replay_walk hend hat hw mem seq hok
  rw [hread, hve, hzero]
  have := log_take_walk hpre
  rw [hrec] at this
  exact this

/-! ### `Recover` -/

/-- The calls that replaying a file makes. -/
def callsOf (b : Bytes) : List (ℕ × WriteOp) := (replayRecords 0 (readLog b).1).2.1

/-- The greatest sequence number that replaying a file meets. -/
def maxSeqOf (b : Bytes) : ℕ := (replayRecords 0 (readLog b).1).2.2

/-- The status of replaying a file. -/
def replayStatus (b : Bytes) : Status := (replayRecords 0 (readLog b).1).1

theorem recover_wp {room : ℕ → Bool} {db : DBImpl} {file : FILE} {seq : ℕ} {fs : FileSystem}
    {Q : Status × DBImpl × ℕ → FileSystem → Prop} {C : FileSystem → Prop} (hC : C fs)
    (hbad : (replayStatus (fs.get file)).ok = false →
      Q (replayStatus (fs.get file), { db with mem := db.mem.insertAll (callsOf (fs.get file)) }, seq) fs)
    (hok : (replayStatus (fs.get file)).ok = true → ∀ b', b' <+: fs.get file →
      Log b' (consumed (readLog (fs.get file)).1) → C (fs.insert file b') ∧
        Q (Status.OK, { db with mem := db.mem.insertAll (callsOf (fs.get file)) }, maxSeqOf (fs.get file))
          (fs.insert file b')) :
    (db.recover file seq).wp (disk room) Q C fs := by
  refine op_wp hC rfl (fun _ h => h) ?_
  have hread : (RFile.ofBytes (fs.get file)).pread 0 (RFile.ofBytes (fs.get file)).size = fs.get file :=
    List.take_length
  obtain ⟨r', heq⟩ := replay_eq (LogReader.new (fs.get file)) db.mem 0
  have hcut := replay_cut (fs.get file) db.mem 0
  rw [heq] at hcut
  simp only [hread, heq]
  by_cases hs : (replayStatus (fs.get file)).ok = true
  · obtain ⟨hle, hlog⟩ := hcut hs
    have hresize : FileSystem.resize (fs.get file) r'.valid_end = (fs.get file).take r'.valid_end := by
      rw [FileSystem.resize, Nat.sub_eq_zero_of_le hle, List.replicate_zero, List.append_nil]
    obtain ⟨hC', hQ⟩ := hok hs _ (List.take_prefix _ _) hlog
    rw [← hresize] at hC' hQ
    rw [if_neg (by simpa [replayStatus, readLog] using hs)]
    refine op_wp hC rfl (fun _ h => h) ?_
    exact Prog.wp_ret hC' hQ
  · rw [if_pos (by simpa [replayStatus, readLog] using hs)]
    exact Prog.wp_ret hC (hbad (by simpa using hs))

/-! ### Replaying twice -/

theorem replayRecords_append (seq : ℕ) {records : List Bytes} (hlen : ∀ r ∈ records, kHeader ≤ r.length)
    (hok : (replayRecords seq records).1.ok = true) (new : List Bytes) :
    replayRecords seq (records ++ new) =
      ((replayRecords (replayRecords seq records).2.2 new).1,
        (replayRecords seq records).2.1 ++ (replayRecords (replayRecords seq records).2.2 new).2.1,
        (replayRecords (replayRecords seq records).2.2 new).2.2) := by
  induction records generalizing seq with
  | nil => rfl
  | cons record records ih =>
      rw [List.cons_append]
      cases hb : WriteBatch.setContents record with
      | error s =>
          have hshort := setContents_error_iff.mp ⟨s, hb⟩
          exact absurd hshort (not_lt.mpr (hlen record List.mem_cons_self))
      | ok batch =>
          simp only [replayRecords, hb] at hok ⊢
          by_cases hgood : batch.iterate.1.ok = true
          · simp only [hgood, Bool.not_true, Bool.false_eq_true, if_false] at hok ⊢
            rw [ih _ (fun r hr => hlen r (List.mem_cons_of_mem _ hr)) hok, List.append_assoc]
          · simp only [hgood, Bool.not_false, if_true] at hok
            exact absurd hok (by simp)

/-- Behind a record that is too short nothing is replayed. -/
theorem replayRecords_consumed (seq : ℕ) (records : List Bytes) :
    replayRecords seq (consumed records) = replayRecords seq records := by
  induction records generalizing seq with
  | nil => rfl
  | cons record records ih =>
      unfold consumed
      split
      · rename_i hshort
        obtain ⟨s, hs⟩ := setContents_error_iff.mpr hshort
        simp only [replayRecords, hs]
      · simp only [replayRecords, ih]

theorem consumed_append_of_short {records : List Bytes} (h : ∃ r ∈ records, r.length < kHeader)
    (new : List Bytes) : consumed (consumed records ++ new) = consumed records := by
  induction records with
  | nil => exact absurd h (by simp)
  | cons record records ih =>
      by_cases hshort : record.length < kHeader
      · rw [consumed, if_pos hshort, List.singleton_append, consumed, if_pos hshort]
      · have h' : ∃ r ∈ records, r.length < kHeader :=
          ((List.exists_mem_cons_iff _ _ _).mp h).resolve_left hshort
        rw [consumed, if_neg hshort, List.cons_append, consumed, if_neg hshort, ih h']

theorem consumed_of_long {records : List Bytes} (h : ∀ r ∈ records, kHeader ≤ r.length) :
    consumed records = records := by
  induction records with
  | nil => rfl
  | cons record records ih =>
      rw [consumed, if_neg (not_lt.mpr (h record List.mem_cons_self)),
        ih fun r hr => h r (List.mem_cons_of_mem _ hr)]

/-- Batches that iterate well are replayed. -/
theorem replayRecords_batches (seq : ℕ) {batches : List WriteBatch}
    (h : ∀ b ∈ batches, b.iterate.1.ok = true) :
    (replayRecords seq (batches.map WriteBatch.rep)).1 = Status.OK ∧
      (replayRecords seq (batches.map WriteBatch.rep)).2.1 = batches.flatMap fun b => b.iterate.2 := by
  induction batches generalizing seq with
  | nil => exact ⟨rfl, rfl⟩
  | cons b batches ih =>
      have hset : WriteBatch.setContents b.rep = .ok b := dif_neg (not_lt.mpr b.header_le)
      obtain ⟨h1, h2⟩ := ih (b.seqAfter seq) fun c hc => h c (List.mem_cons_of_mem _ hc)
      simp only [List.map_cons, replayRecords, hset, h b List.mem_cons_self, Bool.not_true,
        Bool.false_eq_true, if_false, List.flatMap_cons]
      exact ⟨h1, by rw [h2]⟩

end DBImpl

open DBImpl LogWriter

/-- Batches logged behind a cut file. -/
theorem addRecords_behind {file : FILE} {fs : FileSystem} {ds : List Bytes} (h : Log (fs.get file) ds)
    (new : List Bytes) :
    ∃ w fs', ((LogWriter.new file (fs.get file).length).addRecords new).run (disk unbounded) fs =
        .done (Status.OK, w) fs' ∧ Log (fs'.get file) (ds ++ new) := by
  obtain ⟨⟨s, w⟩, fs', hrun, rfl, hlog⟩ := run_unbounded_of_wp
    (@addRecords_wp unbounded (LogWriter.new file (fs.get file).length) new fs
      (fun a fs' => a.1 = Status.OK ∧ Log (fs'.get file) (ds ++ new)) (inStep_new file _)
      (fun w' fs' _ _ hget => ⟨rfl, (congrArg (Log · _) hget).mpr (h.append new)⟩))
  exact ⟨w, fs', hrun, hlog⟩

theorem recover_run {db db' : DBImpl} {file : FILE} {seq seq' : ℕ} {fs fs' : FileSystem} {s : Status}
    (h : (db.recover file seq).run (disk unbounded) fs = .done (s, db', seq') fs') :
    s.ok = (replayStatus (fs.get file)).ok ∧ db'.mem = db.mem.insertAll (callsOf (fs.get file)) ∧
      (s.ok = true → Log (fs'.get file) (consumed (readLog (fs.get file)).1)) := by
  refine Prog.wp_run (Q := fun r w => r.1.ok = (replayStatus (fs.get file)).ok ∧
    r.2.1.mem = db.mem.insertAll (callsOf (fs.get file)) ∧
    (r.1.ok = true → Log (w.get file) (consumed (readLog (fs.get file)).1)))
    (recover_wp (C := fun _ => True) trivial ?_ ?_) h
  · intro hbad
    exact ⟨rfl, rfl, fun hok => absurd hok (by simp [hbad])⟩
  · intro hok b' _ hlog
    refine ⟨trivial, hok.symm, rfl, fun _ => ?_⟩
    rw [FileSystem.get_insert]
    exact hlog

/-- What a second recovery inserts, once the file is a log of the consumed records and of later
batches. -/
theorem recovered_again_iff {file : FILE} {fs fs₁ fs₂ fs₃ : FileSystem} {db db₁ db₂ : DBImpl}
    {seq seq₁ seq₂ : ℕ} {s s₂ : Status} {later : List WriteBatch}
    (hrun : (db.recover file seq).run (disk unbounded) fs = .done (s, db₁, seq₁) fs₁)
    (hs : s.ok = true) (hlater : ∀ b ∈ later, b.iterate.1.ok = true)
    (hlog : Log (fs₂.get file) (consumed (readLog (fs.get file)).1 ++ later.map WriteBatch.rep))
    (hrun₂ : (db.recover file seq).run (disk unbounded) fs₂ = .done (s₂, db₂, seq₂) fs₃) :
    (s₂.ok = true ∧ db₂.mem = db₁.mem.insertAll (later.flatMap fun b => b.iterate.2)) ↔
      (∀ r ∈ (readLog (fs.get file)).1, kHeader ≤ r.length) ∨
        (later.flatMap fun b => b.iterate.2) = [] := by
  obtain ⟨hstatus, hmem, -⟩ := recover_run hrun
  obtain ⟨hstatus₂, hmem₂, -⟩ := recover_run hrun₂
  have hread := hlog.readLog_eq
  rw [hs, replayStatus] at hstatus
  rw [hstatus₂, hmem₂, hmem, ← MemTable.insertAll_append]
  unfold replayStatus callsOf
  rw [hread]
  obtain ⟨hnew, hcalls⟩ := replayRecords_batches (maxSeqOf (fs.get file)) hlater
  by_cases hlong : ∀ r ∈ (readLog (fs.get file)).1, kHeader ≤ r.length
  · -- the second replay goes through the records of the first and then through the new ones
    rw [consumed_of_long hlong, replayRecords_append 0 hlong hstatus.symm, ← maxSeqOf, hnew, hcalls]
    exact ⟨fun _ => Or.inl hlong, fun _ => ⟨rfl, rfl⟩⟩
  · -- the second replay stops where the first one did
    have hshort : ∃ r ∈ (readLog (fs.get file)).1, r.length < kHeader := by simpa using hlong
    rw [← replayRecords_consumed 0 (consumed _ ++ _), consumed_append_of_short hshort,
      replayRecords_consumed, ← hstatus]
    constructor
    · intro h
      have hlen := congrArg (fun m => m.table.length) h.2
      simp only [MemTable.length_insertAll, List.length_append] at hlen
      exact Or.inr (List.length_eq_zero_iff.mp (by omega))
    · intro h
      rw [h.resolve_left hlong, List.append_nil]
      exact ⟨rfl, rfl⟩

theorem exists_recover_run (db : DBImpl) (file : FILE) (seq : ℕ) (fs : FileSystem) :
    ∃ s db' seq' fs', (db.recover file seq).run (disk unbounded) fs = .done (s, db', seq') fs' := by
  obtain ⟨⟨s, db', seq'⟩, fs', hrun, -⟩ := run_unbounded_of_wp
    (@recover_wp unbounded db file seq fs (fun _ _ => True) (fun _ => True) trivial
      (fun _ => trivial) (fun _ _ _ _ => ⟨trivial, trivial⟩))
  exact ⟨s, db', seq', fs', hrun⟩

/-- **Recovery of a recovered log.**  After a recovery that returns OK and any batches logged behind
the cut file, a second recovery returns OK and inserts these batches behind what the first one
inserted, exactly when the log holds no record too short for a batch, or the batches no operation. -/
theorem recover_again_iff (file : FILE) (fs fs₁ : FileSystem) (db db₁ : DBImpl) (seq seq₁ : ℕ)
    (s : Status) (later : List WriteBatch)
    (hrun : (db.recover file seq).run (disk unbounded) fs = .done (s, db₁, seq₁) fs₁)
    (hs : s.ok = true) (hlater : ∀ b ∈ later, b.iterate.1.ok = true) :
    ∃ w fs₂ s₂ db₂ seq₂ fs₃,
      ((LogWriter.new file (fs₁.get file).length).addRecords (later.map WriteBatch.rep)).run
          (disk unbounded) fs₁ = .done (Status.OK, w) fs₂ ∧
        (db.recover file seq).run (disk unbounded) fs₂ = .done (s₂, db₂, seq₂) fs₃ ∧
        ((s₂.ok = true ∧ db₂.mem = db₁.mem.insertAll (later.flatMap fun b => b.iterate.2)) ↔
          (∀ r ∈ (readLog (fs.get file)).1, kHeader ≤ r.length) ∨
            (later.flatMap fun b => b.iterate.2) = []) := by
  obtain ⟨-, -, hlog⟩ := recover_run hrun
  obtain ⟨w, fs₂, hadd, hlog₂⟩ := addRecords_behind (hlog hs) (later.map WriteBatch.rep)
  obtain ⟨s₂, db₂, seq₂, fs₃, hrun₂⟩ := exists_recover_run db file seq fs₂
  exact ⟨w, fs₂, s₂, db₂, seq₂, fs₃, hadd, hrun₂, recovered_again_iff hrun hs hlater hlog₂ hrun₂⟩

/-- A batch that deletes the key `[1]`. -/
def deletionAt (seq : ℕ) : WriteBatch := (WriteBatch.ofOp (.delete [1])).set_sequence seq

theorem iterate_deletionAt {seq : ℕ} (h : seq < 2 ^ 64) :
    (deletionAt seq).iterate = (Status.OK, [(seq, .delete [1])]) :=
  WriteBatch.iterate_ofOp ⟨by decide, by decide⟩ h

/-- The first replay of a log of records. -/
theorem recover_log {db db₁ : DBImpl} {file : FILE} {seq seq₁ : ℕ} {fs fs₁ : FileSystem} {s : Status}
    {ds : List Bytes} (hlog : Log (fs.get file) ds)
    (h : (db.recover file seq).run (disk unbounded) fs = .done (s, db₁, seq₁) fs₁) :
    s.ok = (replayRecords 0 ds).1.ok ∧ db₁.mem = db.mem.insertAll (replayRecords 0 ds).2.1 := by
  obtain ⟨hstatus, hmem, -⟩ := recover_run h
  have hread := congrArg Prod.fst hlog.readLog_eq
  rw [replayStatus, hread] at hstatus
  rw [callsOf, hread] at hmem
  exact ⟨hstatus, hmem⟩

/-- A file that is a log of given records. -/
theorem exists_log (file : FILE) (ds : List Bytes) : ∃ fs : FileSystem, Log (fs.get file) ds := by
  refine ⟨AList.insert file (([] : Bytes) ++ render 0 (physicalRecords 0 ds)) ∅, ?_⟩
  rw [FileSystem.get_insert]
  exact log_nil.append ds

/-- A log of one batch, and another one behind it. -/
theorem recover_again_iff_behind :
    ∃ fs s db₁ seq₁ fs₁ w fs₂ s₂ db₂ seq₂ fs₃,
      (readLog (FileSystem.get fs (ascii "db/1.log"))).1 = [(deletionAt 1).rep] ∧
        ((DBImpl.new (ascii "db")).recover (ascii "db/1.log") 0).run (disk unbounded) fs =
          .done (s, db₁, seq₁) fs₁ ∧ s.ok = true ∧
        ((LogWriter.new (ascii "db/1.log") (FileSystem.get fs₁ (ascii "db/1.log")).length).addRecords
          [(deletionAt 2).rep]).run (disk unbounded) fs₁ = .done (Status.OK, w) fs₂ ∧
        ((DBImpl.new (ascii "db")).recover (ascii "db/1.log") 0).run (disk unbounded) fs₂ =
          .done (s₂, db₂, seq₂) fs₃ ∧
        s₂.ok = true ∧ db₂.mem = MemTable.empty.insertAll [(1, .delete [1]), (2, .delete [1])] := by
  obtain ⟨fs, hlog⟩ := exists_log (ascii "db/1.log") [(deletionAt 1).rep]
  obtain ⟨s, db₁, seq₁, fs₁, hrun⟩ := exists_recover_run (DBImpl.new (ascii "db")) (ascii "db/1.log") 0 fs
  obtain ⟨hs, hmem⟩ := recover_log hlog hrun
  have hone := iterate_deletionAt (by decide : 1 < 2 ^ 64)
  have htwo := iterate_deletionAt (by decide : 2 < 2 ^ 64)
  obtain ⟨hstatus, hcalls⟩ := @replayRecords_batches 0 [deletionAt 1] (by simp [hone])
  rw [List.map_singleton] at hstatus hcalls
  rw [hstatus] at hs
  rw [hcalls] at hmem
  obtain ⟨w, fs₂, s₂, db₂, seq₂, fs₃, hadd, hrun₂, hiff⟩ := recover_again_iff (ascii "db/1.log") fs fs₁
    (DBImpl.new (ascii "db")) db₁ 0 seq₁ s [deletionAt 2] hrun hs (by simp [htwo])
  have hread := congrArg Prod.fst hlog.readLog_eq
  obtain ⟨hok, hmem₂⟩ := hiff.mpr (Or.inl (by
    rw [hread]
    intro r hr
    obtain rfl := List.mem_singleton.mp hr
    exact (deletionAt 1).header_le))
  refine ⟨fs, s, db₁, seq₁, fs₁, w, fs₂, s₂, db₂, seq₂, fs₃, hread, hrun, hs, hadd, hrun₂, hok, ?_⟩
  rw [hmem₂, hmem]
  simp [hone, htwo, DBImpl.new, MemTable.insertAll]

/-- A log of one empty record: what is logged behind it is not replayed. -/
theorem short_record_hides_batches :
    ¬ ∀ (file : FILE) (fs fs₁ fs₂ fs₃ : FileSystem) (db db₁ db₂ : DBImpl) (seq seq₁ seq₂ : ℕ)
      (s s₂ : Status) (w : LogWriter) (later : List WriteBatch),
      (db.recover file seq).run (disk unbounded) fs = .done (s, db₁, seq₁) fs₁ → s.ok = true →
      (∀ b ∈ later, b.iterate.1.ok = true) →
      ((LogWriter.new file (fs₁.get file).length).addRecords (later.map WriteBatch.rep)).run
        (disk unbounded) fs₁ = .done (Status.OK, w) fs₂ →
      (db.recover file seq).run (disk unbounded) fs₂ = .done (s₂, db₂, seq₂) fs₃ →
      s₂.ok = true ∧ db₂.mem = db₁.mem.insertAll (later.flatMap fun b => b.iterate.2) := by
  intro hall
  obtain ⟨fs, hlog⟩ := exists_log (ascii "db/1.log") [[]]
  obtain ⟨s, db₁, seq₁, fs₁, hrun⟩ := exists_recover_run (DBImpl.new (ascii "db")) (ascii "db/1.log") 0 fs
  obtain ⟨hs, -⟩ := recover_log hlog hrun
  obtain ⟨-, -, hcut⟩ := recover_run hrun
  obtain ⟨w, fs₂, hadd, hlog₂⟩ := addRecords_behind (hcut hs) [(deletionAt 1).rep]
  obtain ⟨s₂, db₂, seq₂, fs₃, hrun₂⟩ := exists_recover_run (DBImpl.new (ascii "db"))
    (ascii "db/1.log") 0 fs₂
  have hiff := @recovered_again_iff _ _ _ _ _ _ _ _ _ _ _ _ _ [deletionAt 1] hrun hs
    (by simp [iterate_deletionAt (by decide : 1 < 2 ^ 64)]) hlog₂ hrun₂
  rcases hiff.mp (hall _ _ _ _ _ _ _ _ _ _ _ _ _ w [deletionAt 1] hrun hs
    (by simp [iterate_deletionAt (by decide : 1 < 2 ^ 64)]) hadd hrun₂) with h | h
  · rw [hlog.readLog_eq] at h
    exact absurd (h [] (by simp)) (by decide)
  · simp [iterate_deletionAt (by decide : 1 < 2 ^ 64)] at h

end MiniLevelDB
