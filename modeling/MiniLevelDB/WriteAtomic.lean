import MiniLevelDB.OpenAgain

/-! # Batches and crashes

`Write` takes a batch of any number of operations, though `Put` and `Delete` only hand it batches of one.
Whenever a crash cuts it off, in the log, in the flush behind it or when it is over, the directory is opened
again with all operations of the batch or with none of them (`write_atomic`). -/

namespace MiniLevelDB

open Effect
open LogWriter (recordBytes)

/-! ### Batches as records -/

namespace WriteBatch

/-- The batch consists of the operations, numbered from `seq`. -/
def Consists (b : WriteBatch) (seq : ℕ) (ops : List WriteOp) : Prop :=
  b.rep = encodeFixed64 seq ++ (encodeFixed32 ops.length ++ encodeOps ops)

theorem consists_build {calls : List BatchCall} (h : (opsOf calls).length < 2 ^ 32) (seq : ℕ) :
    ((build calls).set_sequence seq).Consists seq (opsOf calls) := set_sequence_rep (build_rep h)

/-- The handler receives the operations of the batch. -/
theorem Consists.iterate {b : WriteBatch} {seq : ℕ} {ops : List WriteOp} (h : b.Consists seq ops)
    (hfits : ∀ op ∈ ops, op.Fits) (hlen : ops.length < 2 ^ 31) (hseq : seq + ops.length < 2 ^ 64) :
    b.iterate = (Status.OK, numbered seq ops) := by
  have hstored : b.storedCount = ops.length := by
    rw [storedCount, h, List.drop_left' (encodeFixed64_length seq), decodeFixed32_encodeFixed32 (by omega)]
  have hremaining : (b.count % 2 ^ 64).toNat = ops.length := by
    rw [count, hstored, if_pos hlen]
    omega
  have hsequence : b.sequence = seq := by
    rw [sequence, h, decodeFixed64_encodeFixed64 (by omega)]
  have hrecords : b.rep.drop kHeader = encodeOps ops := by
    rw [h, ← List.append_assoc, List.drop_left' (by simp [kHeader])]
  rw [WriteBatch.iterate, hrecords, hsequence, hremaining]
  exact iterateLoop_encodeOps hfits hseq.le

end WriteBatch

open WriteBatch (BatchCall build opsOf numbered)

/-! ### Layers with a batch -/

namespace Layers

/-- The writes of a batch. -/
def writeAll (L : Layers) (seq : ℕ) : List WriteOp → Layers
  | [] => L
  | op :: ops => (L.write seq op).writeAll (seq + 1) ops

theorem writeAll_eq (L : Layers) (seq : ℕ) (ops : List WriteOp) :
    L.writeAll seq ops = ⟨L.tables, L.current ++ numbered seq ops⟩ := by
  induction ops generalizing L seq with
  | nil => rw [writeAll, numbered, List.append_nil]
  | cons op ops ih =>
      rw [writeAll, ih, write, numbered, List.append_assoc]
      rfl

theorem Resolves.writeAll {L : Layers} {ops₀ : List WriteOp} (h : L.Resolves ops₀) (seq : ℕ)
    (ops : List WriteOp) : (L.writeAll seq ops).Resolves (ops₀ ++ ops) := by
  induction ops generalizing L ops₀ seq with
  | nil => rwa [Layers.writeAll, List.append_nil]
  | cons op ops ih =>
      rw [← List.singleton_append, ← List.append_assoc]
      exact ih (h.write seq op) (seq + 1)

theorem Short.writeAll {L : Layers} {ops : List WriteOp} (h : L.Short) (hops : ∀ op ∈ ops, op.Short)
    (seq : ℕ) : (L.writeAll seq ops).Short := by
  induction ops generalizing L seq with
  | nil => exact h
  | cons op ops ih =>
      exact ih (h.write (hops op List.mem_cons_self) seq) (fun o ho => hops o (List.mem_cons_of_mem _ ho)) _

theorem Below.writeAll {L : Layers} {n seq : ℕ} {ops : List WriteOp} (h : L.Below n) (hseq : seq ≤ n + 1) :
    (L.writeAll seq ops).Below (n + ops.length) := by
  induction ops generalizing L n seq with
  | nil => exact h
  | cons op ops ih =>
      have hrest := ih (h.write (Nat.le_succ n) hseq op) (Nat.succ_le_succ hseq)
      rw [Nat.succ_add] at hrest
      exact hrest

theorem WellFormed.writeAll {L : Layers} {seq : ℕ} {ops : List WriteOp} (h : L.WellFormed)
    (hfits : ∀ op ∈ ops, op.Fits) (hlt : seq + ops.length < 2 ^ 64) (hnew : ∀ c ∈ L.current, c.1 < seq) :
    (L.writeAll seq ops).WellFormed := by
  induction ops generalizing L seq with
  | nil => exact h
  | cons op ops ih =>
      rw [List.length_cons] at hlt
      refine ih (h.write (hfits op List.mem_cons_self) (by omega) hnew)
        (fun o ho => hfits o (List.mem_cons_of_mem _ ho)) (by omega) ?_
      intro c hc
      rcases List.mem_append.mp hc with hc | hc
      · exact (hnew c hc).trans (Nat.lt_succ_self seq)
      · obtain rfl := List.mem_singleton.mp hc
        exact Nat.lt_succ_self seq

end Layers

/-! ### What recovery makes of files -/

/-- The replay of the logs gives the calls of the layers that are in no table; the tables store the others. -/
structure Yields (l : List FileEntry) (L : Layers) : Prop where
  tables : tableContents l = L.tables.map tableFor
  status : ∀ b ∈ logContents l, DBImpl.replayStatus b = Status.OK
  calls : logCalls l = L.current

section

variable {dbname : Bytes} {fs : FileSystem} {l l' : List FileEntry} {L : Layers}

/-- The files during a flush. -/
theorem Yields.flushing {m n : ℕ} {b : Bytes} (h : Yields l L) (htidy : Tidy l)
    (hb : (⟨m, .kLogFile⟩, b) ∈ l) (hf : Flushing ⟨m, .kLogFile⟩ n (tableFor L.current) l l') :
    ∃ L', L.Flushes L' ∧ Yields l' L' := by
  have hwithout : ofType .kLogFile (without ⟨m, .kLogFile⟩ l) = [] :=
    @ofType_without ⟨m, .kLogFile⟩ l b (htidy.log_eq hb)
  have htable : ∀ l₁, ofType .kTableFile l₁ = ofType .kTableFile l ++ [(n, tableFor L.current)] →
      tableContents l₁ = (L.tables ++ [L.current]).map tableFor := by
    intro l₁ heq
    rw [tableContents, heq, List.map_append, List.map_append, ← h.tables]
    rfl
  have hnone : ∀ l₁, logContents l₁ = [] ∨ logContents l₁ = [[]] → logCalls l₁ = [] ∧
      ∀ b ∈ logContents l₁, DBImpl.replayStatus b = Status.OK := by
    have hempty : LogHolds [] [] := log_nil.holds
    obtain ⟨hstatus, hcalls, -⟩ := hempty.replay fun c hc => absurd hc List.not_mem_nil
    rintro l₁ (heq | heq)
    · rw [logCalls, heq]
      exact ⟨rfl, fun c hc => absurd hc List.not_mem_nil⟩
    · rw [logCalls, heq]
      refine ⟨by simp [hcalls], fun c hc => ?_⟩
      obtain rfl := List.mem_singleton.mp hc
      exact hstatus
  cases hf with
  | before => exact ⟨L, .before, h⟩
  | writing x =>
      have hsame : ∀ type ≠ FileType.kTempFile, ofType type (l ++ [(⟨n, .kTempFile⟩, x)]) = ofType type l := by
        intro type htype
        simp [htype.symm]
      refine ⟨L, .before, ?_, ?_, ?_⟩
      · rw [tableContents, hsame _ (by decide)]
        exact h.tables
      · rw [logContents, hsame _ (by decide)]
        exact h.status
      · rw [logCalls, logContents, hsame _ (by decide)]
        exact h.calls
  | renamed _ =>
      have hlogs : logContents (l ++ [(⟨n, .kTableFile⟩, tableFor L.current)]) = logContents l := by
        rw [logContents, ofType_append]
        simp [logContents]
      refine ⟨_, .tabled, htable _ (by simp), ?_, ?_⟩
      · rw [hlogs]
        exact h.status
      · rw [logCalls, hlogs]
        exact h.calls
  | unlogged _ =>
      obtain ⟨hcalls, hstatus⟩ := hnone (without ⟨m, .kLogFile⟩ l ++ [(⟨n, .kTableFile⟩, tableFor L.current)])
        (Or.inl (by rw [logContents, ofType_append, hwithout]; simp))
      refine ⟨_, .flushed, htable _ ?_, hstatus, hcalls⟩
      rw [ofType_append, ofType_without_ne (by simp)]
      simp
  | relogged _ =>
      obtain ⟨hcalls, hstatus⟩ := hnone (without ⟨m, .kLogFile⟩ l ++
          [(⟨n, .kTableFile⟩, tableFor L.current), (⟨n + 1, .kLogFile⟩, [])])
        (Or.inr (by rw [logContents, ofType_append, hwithout]; simp [ofType]))
      refine ⟨_, .flushed, htable _ ?_, hstatus, hcalls⟩
      rw [ofType_append, ofType_without_ne (by simp)]
      simp [ofType]

/-- A directory is opened, with the calls of the layers in the memtable and in the tables. -/
theorem Yields.exists_open (h : Yields l L) (hdir : Dir dbname fs l) (htidy : Tidy l)
    (hnum : ∀ p ∈ l, p.1.number + 2 < 2 ^ 64) (htables : ∀ calls ∈ L.tables, Mountable calls) :
    ∃ db fs', (DBImpl.openDB dbname).run (disk offsetLimit) fs = .done (.ok db) fs' ∧
      db.mem = memOf L.current ∧ List.Forall₂ Opens (L.tables.map tableFor).reverse db.tables := by
  have hload : ∀ b ∈ tableContents l, ∃ t, Opens b t := by
    intro b hb
    have hlen := (htidy.tables b hb).1
    rw [h.tables] at hb
    obtain ⟨calls, hcalls, rfl⟩ := List.mem_map.mp hb
    exact (htables calls hcalls).load hlen
  obtain ⟨db, fs', l', hopen, hopened⟩ := openDB_opens hdir hnum hload fun b hb => by
    rw [h.status b hb, Status.ok_OK]
  refine ⟨db, fs', hopen, ?_, ?_⟩
  · rw [(hopened.contents_eq htidy.no_log).1, ← logCalls_eq, h.calls]
    rfl
  · rw [← h.tables]
    exact hopened.tables

theorem Stores.yields_logAfter {L' : Layers} {db : DBImpl} {b x : Bytes} (h : Stores l L) (htidy : Tidy l)
    (hb : (⟨db.log_number, .kLogFile⟩, b) ∈ l) (htables : L'.tables = L.tables)
    (hreplay : DBImpl.replayStatus (b ++ x) = Status.OK ∧ DBImpl.callsOf (b ++ x) = L'.current) :
    Yields (db.logAfter b x l) L' := by
  have hlogs := logContents_logAfter htidy hb x
  constructor
  · rw [DBImpl.logAfter, tableContents_setContent_log, htables]
    exact h.tables
  · intro c hc
    rw [hlogs] at hc
    obtain rfl := List.mem_singleton.mp hc
    exact hreplay.1
  · rw [logCalls, hlogs, List.flatMap_singleton]
    exact hreplay.2

end

/-! ### A log with a batch behind it -/

section

variable {calls : List (ℕ × WriteOp)} {b b' x : Bytes} {batch : WriteBatch} {seq : ℕ} {ops : List WriteOp}

theorem replay_batch (hcalls : ∀ c ∈ calls, Writable c) (hiter : batch.iterate = (Status.OK, numbered seq ops))
    (hread : (readLog b').1 = calls.map recordOf ++ [batch.rep]) :
    DBImpl.replayStatus b' = Status.OK ∧ DBImpl.callsOf b' = calls ++ numbered seq ops := by
  have hreplay := replayRecords_calls hcalls 0
  have hlong : ∀ r ∈ calls.map recordOf, kHeader ≤ r.length := by
    intro r hr
    obtain ⟨c, -, rfl⟩ := List.mem_map.mp hr
    exact kHeader_le_recordOf c
  have happend := DBImpl.replayRecords_append 0 hlong (by rw [hreplay]; rfl) [batch.rep]
  obtain ⟨hstatus, hbatch⟩ := @DBImpl.replayRecords_batches
    (DBImpl.replayRecords 0 (calls.map recordOf)).2.2 [batch] (by simp [hiter])
  rw [List.map_singleton] at hstatus hbatch
  rw [List.flatMap_singleton, hiter] at hbatch
  rw [DBImpl.replayStatus, DBImpl.callsOf, hread, happend, hstatus, hbatch, hreplay]
  exact ⟨rfl, rfl⟩

/-- A torn record is replayed as a whole or not at all. -/
theorem Log.torn_batch (h : Log b (calls.map recordOf)) (hcalls : ∀ c ∈ calls, Writable c)
    (hiter : batch.iterate = (Status.OK, numbered seq ops)) (hx : x <+: recordBytes b.length batch.rep) :
    DBImpl.replayStatus (b ++ x) = Status.OK ∧
      (DBImpl.callsOf (b ++ x) = calls ∨ DBImpl.callsOf (b ++ x) = calls ++ numbered seq ops) := by
  rw [recordBytes_eq] at hx
  obtain ⟨i, hi, hread, -⟩ := h.readLog_torn hx
  rw [List.length_singleton] at hi
  rcases Nat.le_one_iff_eq_zero_or_eq_one.mp hi with rfl | rfl
  · rw [List.take_zero, List.append_nil] at hread
    have hholds : LogHolds calls (b ++ x) := hread
    obtain ⟨hstatus, hsame, -⟩ := hholds.replay hcalls
    exact ⟨hstatus, Or.inl hsame⟩
  · obtain ⟨hstatus, hmore⟩ := replay_batch hcalls hiter hread
    exact ⟨hstatus, Or.inr hmore⟩

theorem Log.written_batch (h : Log b (calls.map recordOf)) (hcalls : ∀ c ∈ calls, Writable c)
    (hiter : batch.iterate = (Status.OK, numbered seq ops)) :
    DBImpl.replayStatus (b ++ recordBytes b.length batch.rep) = Status.OK ∧
      DBImpl.callsOf (b ++ recordBytes b.length batch.rep) = calls ++ numbered seq ops := by
  apply replay_batch hcalls hiter
  rw [recordBytes_eq]
  exact congrArg Prod.fst (h.append [batch.rep]).readLog_eq

end

/-! ### The write -/

/-- The files give some layers when they are replayed. -/
def Replays (dbname : Bytes) (fs : FileSystem) (n : ℕ) (L : Layers) : Prop :=
  ∃ l, Dir dbname fs l ∧ Tidy l ∧ NumberedFiles l n ∧ Yields l L

section

variable {dbname : Bytes} {fs fs' : FileSystem} {l : List FileEntry} {L : Layers} {db : DBImpl} {n : ℕ}
  {batch : WriteBatch} {ops : List WriteOp}

/-- What a write makes of the files: the layers from before, or those with the whole batch. -/
theorem Holds.write (h : Holds dbname ⟨fs, some db⟩ l L) (hnumbered : Numbered ⟨fs, some db⟩ l n)
    (hn : n + 2 < 2 ^ 64) (hseq : db.last_seq + 1 < 2 ^ 64)
    (hiter : (batch.set_sequence (db.last_seq + 1)).iterate = (Status.OK, numbered (db.last_seq + 1) ops)) :
    (db.write batch).wpg (disk offsetLimit) (Safe false) True
      (fun r fs' => r.1 = Status.OK ∧
        ∃ L', (L.writeAll (db.last_seq + 1) ops).Flushes L' ∧ Replays dbname fs' (n + 2) L')
      (fun fs' => Replays dbname fs' (n + 2) L ∨
        ∃ L', (L.writeAll (db.last_seq + 1) ops).Flushes L' ∧ Replays dbname fs' (n + 2) L') fs := by
  obtain ⟨b, hst, hlog⟩ := (h.serving db rfl).log
  have htidy := h.sound.tidy
  have hb := hst.log_mem
  have hnext := hnumbered.next db rfl
  have hwritable : ∀ c ∈ L.current, Writable c := fun c hc => h.wellFormed.writable hc
  have hcurrent : (L.writeAll (db.last_seq + 1) ops).current = L.current ++ numbered (db.last_seq + 1) ops := by
    rw [Layers.writeAll_eq]
  have htables : (L.writeAll (db.last_seq + 1) ops).tables = L.tables := by
    rw [Layers.writeAll_eq]
  have hmem : db.mem.insertAll (numbered (db.last_seq + 1) ops) =
      memOf (L.writeAll (db.last_seq + 1) ops).current := by
    rw [hcurrent, (h.serving db rfl).mem, memOf, memOf, MemTable.insertAll_append]
  have hnumbers : ∀ x, NumberedFiles (db.logAfter b x l) (n + 2) := fun x =>
    (hnumbered.files.logAfter db b x).mono (Nat.le_add_right n 2)
  have hwritten : Yields (db.logAfter b (recordBytes b.length (batch.set_sequence (db.last_seq + 1)).rep) l)
      (L.writeAll (db.last_seq + 1) ops) := by
    apply h.stores.yields_logAfter htidy hb htables
    rw [hcurrent]
    exact hlog.written_batch hwritable hiter
  have hlogged : ∀ fs', Dir dbname fs' (db.logAfter b _ l) →
      Replays dbname fs' (n + 2) (L.writeAll (db.last_seq + 1) ops) := fun fs' hdir =>
    ⟨_, hdir, (tidy_logAfter htidy hb _).1, hnumbers _, hwritten⟩
  have hflushing : ∀ fs' l', Dir dbname fs' l' → Flushing ⟨db.log_number, .kLogFile⟩ db.next_file_number
      (tableFor (L.writeAll (db.last_seq + 1) ops).current)
      (db.logAfter b (recordBytes b.length (batch.set_sequence (db.last_seq + 1)).rep) l) l' →
      ∃ L', (L.writeAll (db.last_seq + 1) ops).Flushes L' ∧ Replays dbname fs' (n + 2) L' := by
    intro fs' l' hdir hf
    obtain ⟨L', hL, hyields⟩ := hwritten.flushing (tidy_logAfter htidy hb _).1 (mem_setContent_self hb) hf
    have hnumber := @number_logAfter l db _ hst.number b
      (recordBytes b.length (batch.set_sequence (db.last_seq + 1)).rep)
    exact ⟨L', hL, l', hdir, ((tidy_logAfter htidy hb _).1.flushing (mem_setContent_self hb) hnumber hf).1,
      numberedFiles_flushing hnumber hnext (mem_setContent_self hb) hf, hyields⟩
  have hbatch : batch.set_sequence (db.last_seq + 1) = batch.set_sequence ((db.last_seq + 1) % 2 ^ 64) := by
    rw [Nat.mod_eq_of_lt hseq]
  refine write_wpg hbatch hst (by omega) ?_ ?_ offsetLimit_lt (fun _ _ _ => trivial) ?_ ?_ ?_
  · -- the record is being written
    intro fs' x hx hdir
    obtain ⟨hstatus, hcalls | hcalls⟩ := hlog.torn_batch hwritable hiter hx
    · exact Or.inl ⟨_, hdir, (tidy_logAfter htidy hb x).1, hnumbers x,
        h.stores.yields_logAfter htidy hb rfl ⟨hstatus, hcalls⟩⟩
    · refine Or.inr ⟨_, .before, _, hdir, (tidy_logAfter htidy hb x).1, hnumbers x, ?_⟩
      exact h.stores.yields_logAfter htidy hb htables ⟨hstatus, hcalls.trans hcurrent.symm⟩
  · intro fs' l' hf hdir
    rw [hiter, hmem] at hf
    exact Or.inr (hflushing fs' l' hdir hf)
  · intro fs' db' hbad
    rw [hiter] at hbad
    cases hbad
  · intro fs' db' _ hended _ _
    exact ⟨rfl, _, .before, hlogged fs' hended.standing.dir⟩
  · intro fs₁ db₁ fs' db' _ hended _ _ hlen hflushed
    refine ⟨rfl, hflushing fs' _ hflushed.standing.dir ?_⟩
    have hmem₁ := hended.mem
    rw [hiter, hmem] at hmem₁
    rw [hended.log_number, hended.next_file_number, hmem₁]
    rw [hmem₁] at hlen
    exact .relogged hlen

/-- Such files are opened, and the layers of the database are these. -/
theorem Replays.reopened {m : ℕ} (h : Replays dbname fs n L) (hn : n + 2 < 2 ^ 64)
    (hfew : ∀ l, Dir dbname fs l → ∀ es, tableBytes es ∈ tableContents l → FewBlocks es)
    (hwellFormed : L.WellFormed) (hshort : L.Short) (hbelow : L.Below m) (hm : m < 2 ^ 56)
    (hresolves : L.Resolves ops) :
    ∃ db fs' tables, (DBImpl.openDB dbname).run (disk offsetLimit) fs = .done (.ok db) fs' ∧
      List.Forall₂ StoresEntries tables db.tables ∧ ∀ k, ResolvesTo k (db.mem.table :: tables) (lastOp k ops) := by
  obtain ⟨l, hdir, htidy, hnumbers, hyields⟩ := h
  have hnumbered : Numbered ⟨fs, none⟩ l n := ⟨hnumbers, fun _ hdb => by cases hdb⟩
  have hmountable : ∀ calls ∈ L.tables, Mountable calls := by
    intro calls hcalls
    apply hfew l hdir
    rw [hyields.tables]
    exact List.mem_map_of_mem hcalls
  obtain ⟨db, fs', hopen, hmem, hopens⟩ := hyields.exists_open hdir htidy
    ((hnumbered.leavesRoom hdir hn).1 l hdir) hmountable
  refine ⟨db, fs', _, hopen, storesEntries_tables hshort hopens, fun k => ?_⟩
  rw [hmem]
  exact hresolves.resolvesTo hwellFormed.ascending hbelow hm k

end

/-- **A batch is written as a whole or not at all.**  After a crash at any moment of `Write` the directory is
opened again, and its layers hold the last write for each key: either of those logged before, or of these and
all operations of the batch.  Where `Write` has returned, the batch is there. -/
theorem write_atomic {dbname : Bytes} {made : List (Call × Option Status)} {fs fs' : FileSystem} {db : DBImpl}
    {calls : List BatchCall} (h : Reach dbname (fun _ call => call.Short) ⟨fs, some db⟩ made)
    (hcount : updatesIn made + (opsOf calls).length < 2 ^ 56) (hlen : (opsOf calls).length < 2 ^ 31)
    (hshort : ∀ op ∈ opsOf calls, op.Short) (hcrash : (db.write (build calls)).Crash (disk offsetLimit) fs fs')
    (hfew : ∀ l, Dir dbname fs' l → ∀ es, tableBytes es ∈ tableContents l → FewBlocks es) :
    ∃ (db' : DBImpl) (fs'' : FileSystem) (tables : List (List Entry)) (ops written : List WriteOp),
      (DBImpl.openDB dbname).run (disk offsetLimit) fs' = .done (.ok db') fs'' ∧
        List.Forall₂ StoresEntries tables db'.tables ∧ Logs made ops ∧ (written = [] ∨ written = opsOf calls) ∧
        (∀ s db₁, (db.write (build calls)).run (disk offsetLimit) fs = .done (s, db₁) fs' →
          s = Status.OK ∧ written = opsOf calls) ∧
        ∀ k, ResolvesTo k (db'.mem.table :: tables) (lastOp k (ops ++ written)) := by
  obtain ⟨l, L, ops, hrep, hlogs, hresolves⟩ := reach_recovers h (by omega)
  obtain ⟨hholds, hnumbered, hnumerous, hshortL⟩ := hrep
  have hseq : db.last_seq ≤ updatesIn made := hnumerous.last_seq db rfl
  have hfits : ∀ op ∈ opsOf calls, op.Fits := fun op hop =>
    ⟨(hshort op hop).1.trans (by decide), (hshort op hop).2.trans (by decide)⟩
  have hiter := (WriteBatch.consists_build (by omega) (db.last_seq + 1)).iterate hfits hlen (by omega)
  have hwp := hholds.write hnumbered (by omega) (by omega) hiter
  -- the layers with the batch, whatever the flush behind it has made of them
  have hwellFormed := hholds.wellFormed.writeAll hfits (by omega) fun c hc =>
    Nat.lt_succ_of_le ((hholds.serving db rfl).last_seq c hc)
  have hwith : ∀ L', (L.writeAll (db.last_seq + 1) (opsOf calls)).Flushes L' →
      Replays dbname fs' (2 + 2 * updatesIn made + 2) L' →
      ∃ db' fs'' tables, (DBImpl.openDB dbname).run (disk offsetLimit) fs' = .done (.ok db') fs'' ∧
        List.Forall₂ StoresEntries tables db'.tables ∧
        ∀ k, ResolvesTo k (db'.mem.table :: tables) (lastOp k (ops ++ opsOf calls)) := by
    intro L' hL hreplays
    have hbelow : (L.writeAll (db.last_seq + 1) (opsOf calls)).Below (updatesIn made + (opsOf calls).length) :=
      hnumerous.below.writeAll (Nat.succ_le_succ hseq)
    exact hreplays.reopened (by omega) hfew (hwellFormed.flushes hL)
      ((hshortL.writeAll hshort (db.last_seq + 1)).flushes hL) (hbelow.flushes hL) (by omega)
      ((hresolves.writeAll (db.last_seq + 1) (opsOf calls)).flushes hL)
  by_cases hdone : ∃ s db₁, (db.write (build calls)).run (disk offsetLimit) fs = .done (s, db₁) fs'
  · obtain ⟨s, db₁, hrun⟩ := hdone
    obtain ⟨hs, L', hL, hreplays⟩ := Prog.wpg_run hwp hrun
    obtain ⟨db', fs'', tables, hopen, hstores, hto⟩ := hwith L' hL hreplays
    refine ⟨db', fs'', tables, ops, opsOf calls, hopen, hstores, hlogs, Or.inr rfl, fun s' db₂ hrun' => ?_, hto⟩
    rw [hrun] at hrun'
    cases hrun'
    exact ⟨hs, rfl⟩
  · have hnot : ∀ s db₁, (db.write (build calls)).run (disk offsetLimit) fs = .done (s, db₁) fs' → False :=
      fun s db₁ hrun => hdone ⟨s, db₁, hrun⟩
    rcases Prog.wpg_crash hwp hcrash with hreplays | ⟨L', hL, hreplays⟩
    · obtain ⟨db', fs'', tables, hopen, hstores, hto⟩ := hreplays.reopened (by omega) hfew hholds.wellFormed
        hshortL hnumerous.below (by omega) hresolves
      refine ⟨db', fs'', tables, ops, [], hopen, hstores, hlogs, Or.inl rfl,
        fun s db₁ hrun => (hnot s db₁ hrun).elim, ?_⟩
      rw [List.append_nil]
      exact hto
    · obtain ⟨db', fs'', tables, hopen, hstores, hto⟩ := hwith L' hL hreplays
      exact ⟨db', fs'', tables, ops, opsOf calls, hopen, hstores, hlogs, Or.inr rfl,
        fun s db₁ hrun => (hnot s db₁ hrun).elim, hto⟩

/-- Two operations of one batch. -/
def pairOps : List WriteOp := [.put [1] [2], .delete [3]]

theorem length_pair_lt : ((build (pairOps.map .op)).set_sequence 3).rep.length < 2 ^ 20 := by
  have hvarint := putVarint32_length_le 1
  rw [WriteBatch.set_sequence_length, WriteBatch.build_rep_length]
  simp [pairOps, opsOf, WriteBatch.encodeOps, WriteOp.encode, putLengthPrefixedSlice, kHeader]
  omega

theorem write_atomic_logged :
    ∃ (fs fs' fs'' : FileSystem) (db db' : DBImpl) (w w' : LogWriter) (tables : List (List Entry))
      (ops written : List WriteOp),
      Reach (ascii "db") (fun _ call => call.Short) ⟨fs, some db⟩ (cutOffCalls ++ [(.openDB, some Status.OK)]) ∧
        db.log = some w ∧
        (w.addRecord ((build (pairOps.map .op)).set_sequence 3).rep).run (disk offsetLimit) fs =
          .done (Status.OK, w') fs' ∧
        (DBImpl.openDB (ascii "db")).run (disk offsetLimit) fs' = .done (.ok db') fs'' ∧
        List.Forall₂ StoresEntries tables db'.tables ∧
        Logs (cutOffCalls ++ [(.openDB, some Status.OK)]) ops ∧ (written = [] ∨ written = pairOps) ∧
        ∀ k, ResolvesTo k (db'.mem.table :: tables) (lastOp k (ops ++ written)) := by
  obtain ⟨fs, db, l, hreach, hsteady, hseq⟩ :=
    exists_resumed (@Dir.empty (ascii "db")) (admits_short (ascii "db"))
  obtain ⟨b, hst, -⟩ := (hsteady.holds.serving db rfl).log
  obtain ⟨w, hw, hfile, hstep⟩ := hst.log
  have hget : fs.get w.file = b := by
    rw [hfile, logFileName_eq]
    exact hst.dir.get_eq hst.log_mem
  have hlog : b.length < 2 ^ 32 := by
    have hle := hsteady.compact b (mem_logContents hst.log_mem rfl)
    have husage : (memOf twoLayers.current).approximateMemoryUsage < 2 ^ 20 := by decide
    omega
  rw [← hget] at hstep hlog
  -- the crash comes when the record of the batch is in the log
  obtain ⟨w', -, hrun⟩ := @LogWriter.addRecord_run w ((build (pairOps.map .op)).set_sequence 3).rep fs hstep (by
    have hrecord := recordBytes_length_le (fs.get w.file).length ((build (pairOps.map .op)).set_sequence 3).rep
    have hbatch := length_pair_lt
    omega)
  have hcrash : (db.write (build (pairOps.map .op))).Crash (disk offsetLimit) fs
      (fs.append w.file (recordBytes (fs.get w.file).length ((build (pairOps.map .op)).set_sequence 3).rep)) := by
    unfold DBImpl.write
    rw [hw, hseq]
    exact Prog.crash_of_bind_run _ hrun (.now _ _)
  have hdir := hst.dir.set hst.log_mem
    (b ++ recordBytes b.length ((build (pairOps.map .op)).set_sequence 3).rep)
  rw [← logFileName_eq, ← hfile, ← hget] at hdir
  have htables := hsteady.holds.stores.tables
  rw [tableContents, ← ofType_setContent_ne (f := ⟨db.log_number, .kLogFile⟩) (by simp)] at htables
  have hshort : ∀ op ∈ opsOf (pairOps.map .op), op.Short := by
    intro op hop
    rcases List.mem_pair.mp hop with rfl | rfl <;> exact ⟨by decide, by decide⟩
  obtain ⟨db', fs'', tables, ops, written, hopen, hstores, hlogs, hwritten, -, hto⟩ :=
    write_atomic hreach (by decide) (by decide) hshort hcrash fun l' hdir' es hes =>
      fewBlocks_of_index_lt (hdir.index_lt [loneCalls] htables footprint_loneCalls l' hdir' es hes)
  exact ⟨fs, _, fs'', db, db', w, w', tables, ops, written, hreach, hw, hrun, hopen, hstores, hlogs, hwritten, hto⟩

end MiniLevelDB
