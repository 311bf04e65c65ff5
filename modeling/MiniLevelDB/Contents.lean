import MiniLevelDB.BlockSafety
import MiniLevelDB.Layers
import MiniLevelDB.Progress
import MiniLevelDB.Runs

/-! # What the files store

`Stores` says that the files of a directory store given layers: each table holds the memtable of its
calls, and the log reads as the batches of the calls in it, with whatever a crash left behind them.
Every call keeps this up, moving the layers as `Layers` says (`leaves_stores`, `ends_stores`). -/

namespace MiniLevelDB

open Effect
open LogWriter (recordBytes)

/-! ### The calls in a log -/

/-- The record of a call. -/
def recordOf (c : ℕ × WriteOp) : Bytes := ((WriteBatch.ofOp c.2).set_sequence c.1).rep

/-- A call that is written as it is. -/
def Writable (c : ℕ × WriteOp) : Prop := c.2.Fits ∧ c.1 < 2 ^ 64

/-- A log reads as the calls. -/
def LogHolds (calls : List (ℕ × WriteOp)) (b : Bytes) : Prop := (readLog b).1 = calls.map recordOf

theorem Log.holds {calls : List (ℕ × WriteOp)} {b : Bytes} (h : Log b (calls.map recordOf)) :
    LogHolds calls b := by rw [LogHolds, h.readLog_eq]

theorem kHeader_le_recordOf (c : ℕ × WriteOp) : kHeader ≤ (recordOf c).length := WriteBatch.header_le _

theorem consumed_records (calls : List (ℕ × WriteOp)) :
    DBImpl.consumed (calls.map recordOf) = calls.map recordOf := by
  apply DBImpl.consumed_of_long
  intro r hr
  obtain ⟨c, -, rfl⟩ := List.mem_map.mp hr
  exact kHeader_le_recordOf c

theorem replayRecords_calls {calls : List (ℕ × WriteOp)} (h : ∀ c ∈ calls, Writable c) (seq : ℕ) :
    DBImpl.replayRecords seq (calls.map recordOf) = (Status.OK, calls, max seq (greatest calls)) := by
  induction calls generalizing seq with
  | nil => simp [DBImpl.replayRecords, greatest]
  | cons c calls ih =>
      obtain ⟨seq₁, op⟩ := c
      obtain ⟨hfits, hlt⟩ := h _ List.mem_cons_self
      have hcontents : WriteBatch.setContents (recordOf (seq₁, op)) =
          .ok ((WriteBatch.ofOp op).set_sequence seq₁) := by
        rw [WriteBatch.setContents, dif_neg (not_lt.mpr (kHeader_le_recordOf _))]
        rfl
      have hiter := WriteBatch.iterate_ofOp hfits hlt
      have hlast : ((((WriteBatch.ofOp op).set_sequence seq₁).sequence : ℤ) +
          ((WriteBatch.ofOp op).set_sequence seq₁).count - 1) % 2 ^ 64 = seq₁ := by
        rw [WriteBatch.sequence_ofOp op hlt, WriteBatch.count_ofOp]
        omega
      have hseq : WriteBatch.seqAfter ((WriteBatch.ofOp op).set_sequence seq₁) seq = max seq seq₁ := by
        rw [WriteBatch.seqAfter, hlast, WriteBatch.count_ofOp, if_pos (by decide), Int.toNat_natCast]
        dsimp only
        split_ifs with hgt
        · exact (max_eq_right hgt.le).symm
        · exact (max_eq_left (not_lt.mp hgt)).symm
      rw [List.map_cons, DBImpl.replayRecords, hcontents]
      simp only [hiter, Status.ok_OK, Bool.not_true, Bool.false_eq_true, if_false]
      rw [hseq, ih (fun d hd => h d (List.mem_cons_of_mem _ hd)), greatest, max_assoc]
      rfl

/-- What recovery makes of such a log. -/
theorem LogHolds.replay {calls : List (ℕ × WriteOp)} {b : Bytes} (h : LogHolds calls b)
    (hcalls : ∀ c ∈ calls, Writable c) :
    DBImpl.replayStatus b = Status.OK ∧ DBImpl.callsOf b = calls ∧ DBImpl.maxSeqOf b = greatest calls := by
  have hreplay := replayRecords_calls hcalls 0
  rw [Nat.zero_max] at hreplay
  refine ⟨?_, ?_, ?_⟩
  · rw [DBImpl.replayStatus, h, hreplay]
  · rw [DBImpl.callsOf, h, hreplay]
  · rw [DBImpl.maxSeqOf, h, hreplay]

/-- A cut log holds the same, and nothing behind it. -/
theorem LogHolds.cutTo {calls : List (ℕ × WriteOp)} {p p' : FileEntry} (h : LogHolds calls p.2)
    (hcut : CutTo p p') : Log p'.2 (calls.map recordOf) := by
  have hlog := hcut.2.2
  rwa [h, consumed_records] at hlog

theorem recordBytes_eq (o : ℕ) (data : Bytes) : recordBytes o data = render o (physicalRecords o [data]) := by
  rw [recordBytes, physicalRecords, physicalRecords, List.append_nil]

/-- A log behind which a call is being written. -/
theorem Log.torn {calls : List (ℕ × WriteOp)} {b x : Bytes} (h : Log b (calls.map recordOf))
    {c : ℕ × WriteOp} (hx : x <+: recordBytes b.length (recordOf c)) :
    LogHolds calls (b ++ x) ∨ LogHolds (calls ++ [c]) (b ++ x) := by
  rw [recordBytes_eq] at hx
  obtain ⟨i, hi, hread, -⟩ := h.readLog_torn hx
  rw [List.length_singleton] at hi
  rcases Nat.le_one_iff_eq_zero_or_eq_one.mp hi with rfl | rfl
  · left
    rw [LogHolds, hread, List.take_zero, List.append_nil]
  · right
    rw [LogHolds, hread, List.map_append]
    rfl

/-- A log behind which a call was written. -/
theorem Log.written {calls : List (ℕ × WriteOp)} {b : Bytes} (h : Log b (calls.map recordOf))
    (c : ℕ × WriteOp) : Log (b ++ recordBytes b.length (recordOf c)) ((calls ++ [c]).map recordOf) := by
  rw [recordBytes_eq, List.map_append]
  exact h.append [recordOf c]

/-! ### The files of given layers -/

/-- The bytes of the table of the calls. -/
def tableFor (calls : List (ℕ × WriteOp)) : Bytes := tableBytes (memOf calls).table

/-- The files store the layers. -/
structure Stores (l : List FileEntry) (L : Layers) : Prop where
  tables : tableContents l = L.tables.map tableFor
  log : ∀ b ∈ logContents l, LogHolds L.current b
  no_log : logContents l = [] → L.current = []

theorem Layers.WellFormed.writable {L : Layers} (h : L.WellFormed) {c : ℕ × WriteOp}
    (hc : c ∈ L.current) : Writable c := by
  have hmem : L.current ∈ L.newestFirst := Layers.mem_newestFirst.mpr (Or.inl rfl)
  have hlt := (h.ascending _ hmem).lt c hc
  exact ⟨h.fits _ hmem c hc, by omega⟩

theorem Stores.empty : Stores [] Layers.empty := ⟨rfl, fun _ h => absurd h List.not_mem_nil, fun _ => rfl⟩

theorem Stores.of_same {l l' : List FileEntry} {L : Layers} (h : Stores l L)
    (hsame : ∀ type ≠ FileType.kTempFile, ofType type l' = ofType type l) : Stores l' L := by
  have htables : tableContents l' = tableContents l := by
    rw [tableContents, hsame _ (by decide)]
    rfl
  have hlogs : logContents l' = logContents l := by
    rw [logContents, hsame _ (by decide)]
    rfl
  constructor
  · rw [htables]
    exact h.tables
  · rw [hlogs]
    exact h.log
  · rw [hlogs]
    exact h.no_log

theorem Stores.kept {l : List FileEntry} {L : Layers} (h : Stores l L) :
    Stores (l.filter MiniLevelDB.kept) L := h.of_same fun _ htype => ofType_kept htype l

theorem logContents_cutting {l l' : List FileEntry} (h : List.Forall₂ Cutting l l') {b' : Bytes}
    (hb : b' ∈ logContents l') : ∃ p ∈ l, p.1.type = .kLogFile ∧ ∃ p', p'.2 = b' ∧ Cutting p p' := by
  induction h with
  | nil => cases hb
  | @cons p p' l l' hp _ ih =>
      have hname : p'.1 = p.1 := by
        rcases hp with rfl | ⟨-, -, hname, -⟩
        · rfl
        · exact hname
      have hrest : b' ∈ logContents l' → ∃ q ∈ p :: l, q.1.type = .kLogFile ∧ ∃ q', q'.2 = b' ∧ Cutting q q' := by
        intro hb
        obtain ⟨q, hq, hqtype, hcut⟩ := ih hb
        exact ⟨q, List.mem_cons_of_mem _ hq, hqtype, hcut⟩
      rw [logContents_cons, hname] at hb
      split_ifs at hb with htype
      · rcases List.mem_cons.mp hb with rfl | hb
        · exact ⟨p, List.mem_cons_self, htype, p', rfl, hp⟩
        · exact hrest hb
      · exact hrest hb

theorem mem_logContents {l : List FileEntry} {p : FileEntry} (hp : p ∈ l) (htype : p.1.type = .kLogFile) :
    p.2 ∈ logContents l := by
  obtain ⟨⟨n, type⟩, b⟩ := p
  obtain rfl : type = .kLogFile := htype
  exact List.mem_map.mpr ⟨(n, b), mem_ofType.mpr hp, rfl⟩

theorem Stores.cutting {l l' : List FileEntry} {L : Layers} (h : Stores l L)
    (hcut : List.Forall₂ Cutting l l') : Stores l' L := by
  constructor
  · rw [tableContents, ofType_cutting (by decide) hcut]
    exact h.tables
  · intro b' hb'
    obtain ⟨p, hp, htype, p', rfl, hpp⟩ := logContents_cutting hcut hb'
    have hholds := h.log p.2 (mem_logContents hp htype)
    rcases hpp with rfl | ⟨-, -, hcutTo⟩
    · exact hholds
    · exact (hholds.cutTo hcutTo).holds
  · intro hnil
    apply h.no_log
    have hlen := length_ofType_cutting .kLogFile hcut
    rw [logContents, List.map_eq_nil_iff] at hnil ⊢
    rw [hnil] at hlen
    exact List.eq_nil_of_length_eq_zero hlen.symm

/-- A log that was created. -/
theorem Stores.newLog {l : List FileEntry} {L : Layers} {n : ℕ} (h : Stores l L)
    (hlog : ofType .kLogFile l = []) : Stores (l ++ [(⟨n, .kLogFile⟩, [])]) L := by
  have hcurrent : L.current = [] := h.no_log (by rw [logContents, hlog]; rfl)
  have hlogs : logContents (l ++ [(⟨n, .kLogFile⟩, [])]) = [[]] := by
    rw [logContents, ofType_append, hlog]
    rfl
  constructor
  · rw [tableContents, ofType_append_log]
    exact h.tables
  · intro b hb
    rw [hlogs] at hb
    obtain rfl := List.mem_singleton.mp hb
    rw [hcurrent]
    exact log_nil.holds
  · exact fun _ => hcurrent

theorem logContents_logAfter {l : List FileEntry} {db : DBImpl} {b : Bytes} (h : Tidy l)
    (hb : (⟨db.log_number, .kLogFile⟩, b) ∈ l) (x : Bytes) : logContents (db.logAfter b x l) = [b ++ x] := by
  rw [logContents, DBImpl.logAfter, @ofType_setContent ⟨db.log_number, .kLogFile⟩ l b (h.log_eq hb)]
  rfl

/-- The files when the log has grown. -/
theorem Stores.logAfter {l : List FileEntry} {L L' : Layers} {db : DBImpl} {b x : Bytes} (h : Stores l L)
    (htidy : Tidy l) (hb : (⟨db.log_number, .kLogFile⟩, b) ∈ l) (htables : L'.tables = L.tables)
    (hholds : LogHolds L'.current (b ++ x)) : Stores (db.logAfter b x l) L' := by
  have hlogs := logContents_logAfter htidy hb x
  constructor
  · rw [DBImpl.logAfter, tableContents_setContent_log, htables]
    exact h.tables
  · intro c hc
    rw [hlogs] at hc
    obtain rfl := List.mem_singleton.mp hc
    exact hholds
  · intro hnil
    rw [hlogs] at hnil
    cases hnil

/-- The files after a flush. -/
theorem Stores.flushed {l : List FileEntry} {L : Layers} {m n : ℕ} {b : Bytes} (h : Stores l L)
    (htidy : Tidy l) (hb : (⟨m, .kLogFile⟩, b) ∈ l) :
    Stores (MiniLevelDB.flushed ⟨m, .kLogFile⟩ n (tableFor L.current) l) L.flushed := by
  have hwithout : ofType .kLogFile (without ⟨m, .kLogFile⟩ l) = [] :=
    @ofType_without ⟨m, .kLogFile⟩ l b (htidy.log_eq hb)
  have hlogs : logContents (MiniLevelDB.flushed ⟨m, .kLogFile⟩ n (tableFor L.current) l) = [[]] := by
    rw [MiniLevelDB.flushed, logContents, ofType_append, hwithout]
    simp [ofType]
  constructor
  · rw [tableContents_flushed, h.tables, Layers.flushed, List.map_append]
    rfl
  · rw [hlogs]
    intro c hc
    obtain rfl := List.mem_singleton.mp hc
    exact log_nil.holds
  · exact fun _ => rfl

/-- The files during a flush. -/
theorem Stores.flushing {l l' : List FileEntry} {L : Layers} {m n : ℕ} {b : Bytes} (h : Stores l L)
    (htidy : Tidy l) (hb : (⟨m, .kLogFile⟩, b) ∈ l)
    (hf : Flushing ⟨m, .kLogFile⟩ n (tableFor L.current) l l') : ∃ L', L.Flushes L' ∧ Stores l' L' := by
  have hlog := htidy.log_eq hb
  have hwithout : ofType .kLogFile (without ⟨m, .kLogFile⟩ l) = [] :=
    @ofType_without ⟨m, .kLogFile⟩ l b hlog
  have htables : ∀ l₁, ofType .kTableFile l₁ = ofType .kTableFile l ++ [(n, tableFor L.current)] →
      tableContents l₁ = (L.tables ++ [L.current]).map tableFor := by
    intro l₁ heq
    rw [tableContents, heq, List.map_append, List.map_append, ← h.tables]
    rfl
  cases hf with
  | before => exact ⟨L, .before, h⟩
  | writing x =>
      refine ⟨L, .before, h.of_same fun type htype => ?_⟩
      simp [htype.symm]
  | renamed _ =>
      have hlogs : logContents (l ++ [(⟨n, .kTableFile⟩, tableFor L.current)]) = logContents l := by
        rw [logContents, ofType_append]
        simp [logContents]
      refine ⟨_, .tabled, htables _ (by simp), ?_, ?_⟩
      · rw [hlogs]
        exact h.log
      · rw [hlogs]
        exact h.no_log
  | unlogged _ =>
      have hlogs : logContents (without ⟨m, .kLogFile⟩ l ++ [(⟨n, .kTableFile⟩, tableFor L.current)]) = [] := by
        rw [logContents, ofType_append, hwithout]
        simp
      refine ⟨_, .flushed, htables _ ?_, ?_, fun _ => rfl⟩
      · rw [ofType_append, ofType_without_ne (by simp)]
        simp
      · rw [hlogs]
        exact fun c hc => by cases hc
  | relogged _ => exact ⟨_, .flushed, h.flushed htidy hb⟩

/-! ### The calls on the layers -/

/-- An open database serves the layers. -/
structure Serving (dbname : Bytes) (fs : FileSystem) (l : List FileEntry) (L : Layers) (db : DBImpl) :
    Prop where
  log : ∃ b, Standing dbname fs l b db ∧ Log b (L.current.map recordOf)
  mem : db.mem = memOf L.current
  last_seq : ∀ c ∈ L.current, c.1 ≤ db.last_seq

/-- The files of a world store the layers, and a database open on them serves them. -/
structure Holds (dbname : Bytes) (w : World) (l : List FileEntry) (L : Layers) : Prop where
  sound : Sound dbname w l
  stores : Stores l L
  wellFormed : L.WellFormed
  serving : ∀ db, w.db = some db → Serving dbname w.fs l L db

/-- The open tables are those of the older layers. -/
theorem Holds.opens {dbname : Bytes} {fs : FileSystem} {db : DBImpl} {l : List FileEntry} {L : Layers}
    (h : Holds dbname ⟨fs, some db⟩ l L) : List.Forall₂ Opens (L.tables.map tableFor).reverse db.tables := by
  obtain ⟨b, hst, -⟩ := (h.serving db rfl).log
  rw [← h.stores.tables]
  exact hst.tables

/-- A call the encoding can represent. -/
def Representable (w : World) : Call → Prop
  | .perform op => op.Fits ∧ ∀ db, w.db = some db → db.last_seq + 1 < 2 ^ 64
  | _ => True

/-- What a crash during a call makes of the layers. -/
inductive Moves (L : Layers) : Option DBImpl → Call → Layers → Prop
  | opening : Moves L none .openDB L
  | lost {db : DBImpl} {op : WriteOp} : Moves L (some db) (.perform op) L
  | written {db : DBImpl} {op : WriteOp} {L' : Layers} : (L.write (db.last_seq + 1) op).Flushes L' →
      Moves L (some db) (.perform op) L'
  | flushing {db : DBImpl} {L' : Layers} : L.Flushes L' → Moves L (some db) .flush L'
  | closing {db : DBImpl} : Moves L (some db) .close L

/-- How a call ends, with the layers and the database then open. -/
inductive Turns (L : Layers) : Option DBImpl → Call → Status → Layers → Option DBImpl → Prop
  | opened {db' : DBImpl} : db'.mem = memOf L.current → db'.last_seq = greatest L.current →
      Turns L none .openDB Status.OK L (some db')
  | written {db db' : DBImpl} {op : WriteOp} : db'.last_seq = db.last_seq + 1 →
      db'.mem.approximateMemoryUsage < kMaxMemTableBytes →
      Turns L (some db) (.perform op) Status.OK (L.write (db.last_seq + 1) op) (some db')
  | filled {db db' : DBImpl} {op : WriteOp} : db'.last_seq = db.last_seq + 1 → db'.mem = MemTable.empty →
      kMaxMemTableBytes ≤ (memOf (L.write (db.last_seq + 1) op).current).approximateMemoryUsage →
      Turns L (some db) (.perform op) Status.OK (L.write (db.last_seq + 1) op).flushed (some db')
  | flushed {db db' : DBImpl} : L.current ≠ [] → db'.last_seq = db.last_seq → db'.mem = MemTable.empty →
      Turns L (some db) .flush Status.OK L.flushed (some db')
  | unchanged {db : DBImpl} : L.current = [] → Turns L (some db) .flush Status.OK L (some db)
  | closed {db : DBImpl} : Turns L (some db) .close Status.OK L none

theorem DBImpl.batchOf_iterate {db : DBImpl} {op : WriteOp} (hfits : op.Fits)
    (hseq : db.last_seq + 1 < 2 ^ 64) : (db.batchOf op).iterate = (Status.OK, [(db.last_seq + 1, op)]) := by
  rw [batchOf, Nat.mod_eq_of_lt (by omega)]
  exact WriteBatch.iterate_ofOp hfits (by omega)

theorem DBImpl.batchOf_rep {db : DBImpl} (op : WriteOp) (hseq : db.last_seq + 1 < 2 ^ 64) :
    (db.batchOf op).rep = recordOf (db.last_seq + 1, op) := by
  rw [batchOf, Nat.mod_eq_of_lt (by omega)]
  rfl

section

variable {dbname : Bytes} {fs : FileSystem} {l l' : List FileEntry} {L : Layers} {db : DBImpl}
  {op : WriteOp} {b : Bytes}

theorem Serving.memAfter (h : Serving dbname fs l L db) (hfits : op.Fits) (hseq : db.last_seq + 1 < 2 ^ 64) :
    db.memAfter op = memOf (L.write (db.last_seq + 1) op).current := by
  rw [DBImpl.memAfter, DBImpl.batchOf_iterate hfits hseq, h.mem, Layers.write, memOf_concat]

/-- The log of an open database is the one that is served. -/
theorem Serving.log_of_mem (h : Serving dbname fs l L db) (htidy : Tidy l)
    (hb : (⟨db.log_number, .kLogFile⟩, b) ∈ l) : Log b (L.current.map recordOf) := by
  obtain ⟨b', hst, hlog⟩ := h.log
  have heq := (htidy.log_eq hb).symm.trans (htidy.log_eq hst.log_mem)
  obtain rfl : b = b' := congrArg Prod.snd (List.singleton_inj.mp heq)
  exact hlog

/-- The files after a write was logged. -/
theorem Serving.stores_logged (h : Serving dbname fs l L db) (htidy : Tidy l) (hstores : Stores l L)
    (hseq : db.last_seq + 1 < 2 ^ 64) (hb : (⟨db.log_number, .kLogFile⟩, b) ∈ l) :
    Stores (db.logged b op l) (L.write (db.last_seq + 1) op) ∧
      Log (b ++ recordBytes b.length (db.batchOf op).rep)
        ((L.write (db.last_seq + 1) op).current.map recordOf) := by
  have hlog := (h.log_of_mem htidy hb).written (db.last_seq + 1, op)
  rw [← DBImpl.batchOf_rep op hseq] at hlog
  exact ⟨hstores.logAfter htidy hb rfl hlog.holds, hlog⟩

end

theorem Holds.wellFormed_write {dbname : Bytes} {fs : FileSystem} {l : List FileEntry} {L : Layers}
    {db : DBImpl} {op : WriteOp} (h : Holds dbname ⟨fs, some db⟩ l L) (hfits : op.Fits)
    (hseq : db.last_seq + 1 < 2 ^ 64) : (L.write (db.last_seq + 1) op).WellFormed := by
  apply h.wellFormed.write hfits hseq
  exact fun c hc => Nat.lt_succ_of_le ((h.serving db rfl).last_seq c hc)

/-- **A crash moves the layers.** -/
theorem leaves_stores {dbname : Bytes} {w : World} {l l' : List FileEntry} {L : Layers} {call : Call}
    (h : Holds dbname w l L) (hrep : Representable w call) (hleaves : Leaves l w.db call l') :
    ∃ L', Moves L w.db call L' ∧ Stores l' L' := by
  obtain ⟨fs, open?⟩ := w
  have htidy := h.sound.tidy
  cases hleaves with
  | @scanning pre post hl =>
      refine ⟨L, .opening, h.stores.of_same fun type htype => ?_⟩
      rw [hl, ofType_append, ofType_kept htype, ofType_append]
  | cutting hcut => exact ⟨L, .opening, h.stores.kept.cutting hcut⟩
  | creating hmax =>
      refine ⟨L, .opening, h.stores.kept.newLog ?_⟩
      rw [ofType_kept (by decide), htidy.no_log hmax]
  | @logging db op b x hb hx =>
      have hserving := h.serving db rfl
      obtain ⟨hfits, hseq⟩ := hrep
      have hseq := hseq db rfl
      rw [DBImpl.batchOf_rep op hseq] at hx
      rcases (hserving.log_of_mem htidy hb).torn hx with hholds | hholds
      · exact ⟨L, .lost, h.stores.logAfter htidy hb rfl hholds⟩
      · exact ⟨_, .written .before, h.stores.logAfter htidy hb rfl hholds⟩
  | @filling db op b l' hb hf =>
      have hserving := h.serving db rfl
      obtain ⟨hfits, hseq⟩ := hrep
      have hseq := hseq db rfl
      obtain ⟨hstores, -⟩ := hserving.stores_logged htidy h.stores hseq hb
      rw [hserving.memAfter hfits hseq] at hf
      obtain ⟨L', hL', hstores'⟩ := hstores.flushing (tidy_logAfter htidy hb _).1 (mem_setContent_self hb) hf
      exact ⟨L', .written hL', hstores'⟩
  | @flushing db l' hf =>
      have hserving := h.serving db rfl
      obtain ⟨b, hst, -⟩ := hserving.log
      rw [hserving.mem] at hf
      obtain ⟨L', hL', hstores'⟩ := h.stores.flushing htidy hst.log_mem hf
      exact ⟨L', .flushing hL', hstores'⟩
  | closing => exact ⟨L, .closing, h.stores⟩

/-! ### The ends of the calls -/

theorem seqBehind_batchOf {db : DBImpl} (op : WriteOp) (hseq : db.last_seq + 1 < 2 ^ 64) :
    seqBehind db (db.batchOf op) = db.last_seq + 1 := by
  rw [seqBehind, DBImpl.batchOf, WriteBatch.count_ofOp]
  omega

theorem memOf_table_eq_nil {calls : List (ℕ × WriteOp)} : (memOf calls).table = [] ↔ calls = [] := by
  constructor
  · intro h
    apply List.eq_nil_iff_forall_not_mem.mpr
    intro c hc
    have hmem : callEntry c ∈ (memOf calls).table := mem_memOf.mpr ⟨c, hc, rfl⟩
    rw [h] at hmem
    cases hmem
  · rintro rfl
    rfl

/-- What an opened database is, over the layers. -/
theorem Holds.opened {dbname : Bytes} {fs fs' : FileSystem} {l l' : List FileEntry} {L : Layers}
    {db : DBImpl} (h : Holds dbname ⟨fs, none⟩ l L) (hnum : ∀ p ∈ l, p.1.number + 2 < 2 ^ 64)
    (hopened : Opened dbname fs' l l' db) :
    Serving dbname fs' l' L db ∧ db.last_seq = greatest L.current := by
  obtain ⟨b, hst⟩ := hopened.standing hnum
  have htidy := h.sound.tidy
  have hwritable : ∀ c ∈ L.current, Writable c := fun c hc => h.wellFormed.writable hc
  have hserves : Log b (L.current.map recordOf) ∧ db.mem = memOf L.current ∧
      db.last_seq = greatest L.current := by
    rcases hopened.contents with ⟨hmax, rfl, -, -, hmem, hseq⟩ | ⟨hmax, hcut, hnumber, -, hmem, hseq⟩
    · -- a new log
      have hnil := htidy.no_log hmax
      have hcurrent : L.current = [] := h.stores.no_log (by rw [logContents, hnil]; rfl)
      have hb := mem_ofType.mpr hst.log_mem
      rw [ofType_append, ofType_kept (by decide), hnil] at hb
      obtain rfl : b = [] := congrArg Prod.snd (List.mem_singleton.mp hb)
      rw [hcurrent]
      exact ⟨log_nil, hmem, hseq⟩
    · -- the log was replayed
      obtain ⟨b₀, hb₀⟩ := (maxLogNumber_cases 0 l).resolve_left hmax
      have hlogs : logContents l = [b₀] := by
        rw [logContents, htidy.log_eq hb₀]
        rfl
      obtain ⟨-, hcalls, hlast⟩ := (h.stores.log b₀ (by rw [hlogs]; exact List.mem_singleton.mpr rfl)).replay
        hwritable
      refine ⟨?_, ?_, ?_⟩
      · obtain ⟨p, hp, hpcut⟩ := exists_of_forall₂ hcut.flip hst.log_mem
        have hname : p.1 = ⟨db.log_number, .kLogFile⟩ := by
          rcases Cut.cutting hpcut with heq | ⟨-, -, heq, -⟩
          · rw [← heq]
          · exact heq.symm
        have htype : p.1.type = .kLogFile := congrArg FileInfo.type hname
        have hcutTo : CutTo p (⟨db.log_number, .kLogFile⟩, b) := by
          have hpcut : Cut p (⟨db.log_number, .kLogFile⟩, b) := hpcut
          rw [Cut, if_pos htype] at hpcut
          exact hpcut.2
        exact (h.stores.log p.2 (mem_logContents (List.mem_of_mem_filter hp) htype)).cutTo hcutTo
      · rw [hmem, logCalls, hlogs, List.flatMap_singleton, hcalls]
        rfl
      · rw [hseq, lastMaxSeq, hlogs]
        exact hlast
  obtain ⟨hlog, hmem, hseq⟩ := hserves
  refine ⟨⟨⟨b, hst, hlog⟩, hmem, ?_⟩, hseq⟩
  rw [hseq]
  exact fun c hc => le_greatest hc

/-- Opening is not refused. -/
theorem Holds.not_refused {dbname : Bytes} {fs : FileSystem} {l : List FileEntry} {L : Layers} {s : Status}
    (h : Holds dbname ⟨fs, none⟩ l L) (hs : s.ok = false)
    (hwhy : (∃ b ∈ tableContents l, Table.load (RFile.ofBytes b) = .ok (.error s)) ∨
      ∃ b ∈ logContents l, s = DBImpl.replayStatus b) : False := by
  rcases hwhy with ⟨b, hb, hload⟩ | ⟨b, hb, rfl⟩
  · obtain ⟨hlen, es, rfl⟩ := h.sound.tidy.tables b hb
    exact load_tableBytes_not_error hlen hload
  · obtain ⟨hstatus, -⟩ := (h.stores.log b hb).replay fun c hc => h.wellFormed.writable hc
    rw [hstatus] at hs
    cases hs

/-- A database whose memtable has become a table. -/
theorem Flushed.serving {dbname : Bytes} {fs : FileSystem} {l : List FileEntry} {L : Layers}
    {db db' : DBImpl} (h : Flushed dbname fs l db db') (hmem : db.mem = memOf L.current) :
    Serving dbname fs
      (flushed ⟨db.log_number, .kLogFile⟩ db.next_file_number (tableFor L.current) l) L.flushed db' := by
  have hst := h.standing
  rw [hmem] at hst
  refine ⟨⟨[], hst, log_nil⟩, h.mem, ?_⟩
  exact fun c hc => by cases hc

/-- A database that has logged a write. -/
theorem Logged.serving {dbname : Bytes} {fs fs' : FileSystem} {l : List FileEntry} {L : Layers}
    {db db' : DBImpl} {op : WriteOp} {b : Bytes} (h : Holds dbname ⟨fs, some db⟩ l L) (hfits : op.Fits)
    (hseq : db.last_seq + 1 < 2 ^ 64) (hb : (⟨db.log_number, .kLogFile⟩, b) ∈ l)
    (hlogged : Logged dbname fs' l b (db.batchOf op) db db') (hlast : db'.last_seq = db.last_seq + 1) :
    Serving dbname fs' (db.logged b op l) (L.write (db.last_seq + 1) op) db' := by
  have hserving := h.serving db rfl
  obtain ⟨-, hlog⟩ := hserving.stores_logged h.sound.tidy h.stores hseq hb
  refine ⟨⟨_, hlogged.standing, hlog⟩, ?_, ?_⟩
  · rw [← hserving.memAfter hfits hseq]
    exact hlogged.mem
  · intro c hc
    rw [hlast]
    rcases List.mem_append.mp hc with hc | hc
    · exact (hserving.last_seq c hc).trans (Nat.le_succ _)
    · obtain rfl := List.mem_singleton.mp hc
      exact le_refl _

/-- **A call that ends turns the layers.** -/
theorem ends_holds {dbname : Bytes} {w : World} {fs : FileSystem} {l l' : List FileEntry} {L : Layers}
    {call : Call} {s : Status} {db' : Option DBImpl} (h : Holds dbname w l L) (hroom : LeavesRoom dbname w)
    (hrep : Representable w call) (hdir : Dir dbname fs l')
    (hends : Ends dbname fs l w.db call s l' db') :
    ∃ L', Turns L w.db call s L' db' ∧ Holds dbname ⟨fs, db'⟩ l' L' := by
  obtain ⟨hsound, -⟩ := ends_sound h.sound hroom hdir hends
  obtain ⟨fs₀, open?⟩ := w
  have htidy := h.sound.tidy
  cases hends with
  | @opened l' db' hopened =>
      obtain ⟨L', hmoves, hstores⟩ := leaves_stores h hrep (Ends.opened hopened).leaves
      obtain rfl : L' = L := by cases hmoves; rfl
      obtain ⟨hserving, hseq⟩ := h.opened (hroom.1 l h.sound.rests.1) hopened
      refine ⟨L', .opened hserving.mem hseq, hsound, hstores, h.wellFormed, ?_⟩
      rintro _ ⟨⟩
      exact hserving
  | refused hs _ hwhy => exact (h.not_refused hs hwhy).elim
  | @rejected db db' op b _ hiter _ _ =>
      rw [DBImpl.batchOf_iterate hrep.1 (hrep.2 db rfl)] at hiter
      cases hiter
  | @written db db' op b hb _ hlogged hlast husage =>
      have hseq := hrep.2 db rfl
      rw [seqBehind_batchOf op hseq] at hlast
      obtain ⟨hstores, -⟩ := (h.serving db rfl).stores_logged htidy h.stores hseq hb
      refine ⟨_, .written hlast husage, hsound, hstores, h.wellFormed_write hrep.1 hseq, ?_⟩
      rintro _ ⟨⟩
      exact hlogged.serving h hrep.1 hseq hb hlast
  | @filled db db₁ db' fs₁ op b hb _ hlogged hlast hfull _ hflushed =>
      have hseq := hrep.2 db rfl
      rw [seqBehind_batchOf op hseq] at hlast
      obtain ⟨hstores, -⟩ := (h.serving db rfl).stores_logged htidy h.stores hseq hb
      have hserving := hlogged.serving h hrep.1 hseq hb hlast
      have hmem : (⟨db₁.log_number, .kLogFile⟩, b ++ recordBytes b.length (db.batchOf op).rep) ∈
          db.logged b op l := by
        rw [hlogged.log_number]
        exact mem_setContent_self hb
      have hstores' := hstores.flushed (n := db₁.next_file_number) (tidy_logAfter htidy hb _).1 hmem
      have hserving' := hflushed.serving hserving.mem
      rw [tableFor, ← hserving.mem] at hstores' hserving'
      rw [hserving.mem] at hfull
      refine ⟨_, .filled (hflushed.last_seq.trans hlast) hflushed.mem hfull, hsound, hstores',
        (h.wellFormed_write hrep.1 hseq).flushes .flushed, ?_⟩
      rintro _ ⟨⟩
      exact hserving'
  | @flushed db db' hne _ hflushed =>
      have hserving := h.serving db rfl
      obtain ⟨b, hst, -⟩ := hserving.log
      have hstores' := h.stores.flushed (n := db.next_file_number) htidy hst.log_mem
      have hserving' := hflushed.serving hserving.mem
      rw [tableFor, ← hserving.mem] at hstores' hserving'
      have hcurrent : L.current ≠ [] := by
        rw [hserving.mem] at hne
        exact fun hnil => hne (memOf_table_eq_nil.mpr hnil)
      refine ⟨_, .flushed hcurrent hflushed.last_seq hflushed.mem, hsound, hstores',
        h.wellFormed.flushes .flushed, ?_⟩
      rintro _ ⟨⟩
      exact hserving'
  | @unchanged db b hempty hst =>
      have hserving := h.serving db rfl
      rw [hserving.mem] at hempty
      refine ⟨L, .unchanged (memOf_table_eq_nil.mp hempty), hsound, h.stores, h.wellFormed, ?_⟩
      rintro _ ⟨⟩
      exact ⟨⟨b, hst, hserving.log_of_mem htidy hst.log_mem⟩, hserving.mem, hserving.last_seq⟩
  | closed => exact ⟨L, .closed, hsound, h.stores, h.wellFormed, fun _ hdb => by cases hdb⟩

/-! ### Steps and runs -/

/-- What a step makes of the layers. -/
inductive Advances (L : Layers) (w : World) (call : Call) : Option Status → Layers → Option DBImpl → Prop
  | ended {s : Status} {L' : Layers} {db' : Option DBImpl} : Turns L w.db call s L' db' →
      Advances L w call (some s) L' db'
  | crashed {L' : Layers} : Moves L w.db call L' → Advances L w call none L' none

theorem Holds.wellFormed_moves {dbname : Bytes} {w : World} {l : List FileEntry} {L L' : Layers}
    {call : Call} (h : Holds dbname w l L) (hrep : Representable w call) (hmoves : Moves L w.db call L') :
    L'.WellFormed := by
  obtain ⟨fs, open?⟩ := w
  cases hmoves with
  | opening => exact h.wellFormed
  | lost => exact h.wellFormed
  | written hL => exact (h.wellFormed_write hrep.1 (hrep.2 _ rfl)).flushes hL
  | flushing hL => exact h.wellFormed.flushes hL
  | closing => exact h.wellFormed

/-- **A step on the files is a step on the layers.** -/
theorem becomes_holds {dbname : Bytes} {w w' : World} {l l' : List FileEntry} {L : Layers} {call : Call}
    {s : Option Status} (h : Holds dbname w l L) (hroom : LeavesRoom dbname w)
    (hrep : Representable w call) (hdir : Dir dbname w'.fs l') (hb : Becomes dbname w l call s w' l') :
    ∃ L', Holds dbname w' l' L' ∧ Advances L w call s L' w'.db := by
  rcases hb with ⟨s', rfl, hends⟩ | ⟨rfl, hclosed, hleaves⟩
  · obtain ⟨L', hturns, hholds⟩ := ends_holds h hroom hrep hdir hends
    exact ⟨L', hholds, .ended hturns⟩
  · obtain ⟨L', hmoves, hstores⟩ := leaves_stores h hrep hleaves
    obtain ⟨htidy, -⟩ := leaves_tidy h.sound hroom hleaves
    obtain ⟨fs', db'⟩ := w'
    obtain rfl : db' = none := hclosed
    exact ⟨L', ⟨⟨rests_closed hdir, htidy⟩, hstores, h.wellFormed_moves hrep hmoves,
      fun _ hdb => by cases hdb⟩, .crashed hmoves⟩

theorem step_holds {dbname : Bytes} {w w' : World} {l : List FileEntry} {L : Layers} {call : Call}
    {s : Option Status} (h : Holds dbname w l L) (hroom : LeavesRoom dbname w)
    (hrep : Representable w call) (hstep : Step dbname w call s w') :
    ∃ l' L', Holds dbname w' l' L' ∧ Advances L w call s L' w'.db ∧ Becomes dbname w l call s w' l' := by
  obtain ⟨l', hdir', hb⟩ := step_cases h.sound.rests hroom hstep
  obtain ⟨L', hholds, hadvances⟩ := becomes_holds h hroom hrep hdir' hb
  exact ⟨l', L', hholds, hadvances, hb⟩

theorem holds_start {dbname : Bytes} {fs : FileSystem} (hdir : Dir dbname fs []) :
    Holds dbname ⟨fs, none⟩ [] Layers.empty :=
  ⟨⟨rests_closed hdir, Tidy.nil⟩, Stores.empty, Layers.WellFormed.empty, fun _ hdb => by cases hdb⟩

/-- **Runs store layers**, with any invariant of the layers that the steps keep. -/
theorem reach_holds {dbname : Bytes} {P : World → Call → Prop}
    {I : World → List FileEntry → Layers → List (Call × Option Status) → Prop} {w : World}
    {made : List (Call × Option Status)}
    (hP : ∀ {w made l L call}, I w l L made → Holds dbname w l L → P w call →
      LeavesRoom dbname w ∧ Representable w call)
    (hstart : ∀ fs, I ⟨fs, none⟩ [] Layers.empty [])
    (hstep : ∀ {w w' l l' L L' call s made}, P w call → Holds dbname w l L → Holds dbname w' l' L' →
      Advances L w call s L' w'.db → I w l L made → I w' l' L' (made ++ [(call, s)]))
    (h : Reach dbname P w made) : ∃ l L, Holds dbname w l L ∧ I w l L made := by
  induction h with
  | start hdir => exact ⟨[], Layers.empty, holds_start hdir, hstart _⟩
  | step _ hPcall hone ih =>
      obtain ⟨l, L, hholds, hI⟩ := ih
      obtain ⟨hroom, hrep⟩ := hP hI hholds hPcall
      obtain ⟨l', L', hholds', hadvances, -⟩ := step_holds hholds hroom hrep hone
      exact ⟨l', L', hholds', hstep hPcall hholds hholds' hadvances hI⟩

end MiniLevelDB
