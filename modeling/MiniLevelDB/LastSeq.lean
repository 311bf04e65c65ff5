import Mathlib.Data.List.TakeWhile
import MiniLevelDB.BatchGrammar
import MiniLevelDB.Opening

/-! # Sequence numbers after opening

`firstFor_insert` says that a write with a tag not below those stored for its key is what a lookup finds.
`openDB_current_iff` says when `Init` leaves `last_seq_` so that the next write is one: only the last log
counts, of each of its batches the last operation, and a tag keeps 56 bits of a number. -/

namespace MiniLevelDB

open Effect DBImpl

/-! ### The newest entry of a memtable -/

/-- An entry not below those of its user key comes first. -/
theorem firstFor_insert {es : List Entry} {e : Entry}
    (hnew : ∀ e' ∈ es, e'.userKey = e.userKey → extractTag e'.1 ≤ extractTag e.1) (k : Bytes) :
    firstFor k (MemTable.insert e es) = if e.userKey = k then some e else firstFor k es := by
  have hsplit := List.takeWhile_append_dropWhile (p := fun b => decide ¬Entry.Le e b) (l := es)
  rw [MemTable.insert, List.orderedInsert_eq_take_drop]
  by_cases hk : e.userKey = k
  · -- the entries in front of `e` are not less, so they are of other keys
    have hbefore : firstFor k (es.takeWhile fun b => decide ¬Entry.Le e b) = none := by
      refine List.find?_eq_none.mpr fun b hb => ?_
      have himp := List.mem_takeWhile_imp hb
      have hnot : ¬ Entry.Le e b := of_decide_eq_true himp
      have hmem : b ∈ es := List.takeWhile_subset _ hb
      intro hbk
      have hbk : b.userKey = e.userKey := (of_decide_eq_true hbk).trans hk.symm
      exact hnot ((Entry.le_iff e b).mpr (Or.inr ⟨hbk.symm, hnew b hmem hbk⟩))
    rw [if_pos hk, firstFor, List.find?_append, ← firstFor, hbefore, Option.none_or, List.find?_cons,
      decide_eq_true hk]
  · rw [if_neg hk, firstFor, List.find?_append, List.find?_cons, decide_eq_false hk, ← List.find?_append,
      hsplit, firstFor]

/-- The entry of a call to the handler. -/
def callEntry (c : ℕ × WriteOp) : Entry := entryOf c.1 c.2.type c.2.key c.2.value

@[simp] theorem callEntry_userKey (c : ℕ × WriteOp) : (callEntry c).userKey = c.2.key :=
  extractUserKey_internalKey _ _ _

theorem extractTag_callEntry (c : ℕ × WriteOp) :
    extractTag (callEntry c).1 = packSequenceAndType c.1 c.2.type := extractTag_internalKey _ _ _

/-- A sequence number is kept in 56 bits. -/
theorem callEntry_seq_mod (c : ℕ × WriteOp) : (callEntry c).seq = c.1 % 2 ^ 56 := by
  have := c.2.type.toNat_lt
  rw [Entry.seq, extractTag_callEntry, packSequenceAndType_eq, Nat.shiftRight_eq_div_pow]
  omega

theorem callEntry_seq {c : ℕ × WriteOp} (h : c.1 < 2 ^ 56) : (callEntry c).seq = c.1 :=
  (callEntry_seq_mod c).trans (Nat.mod_eq_of_lt h)

theorem mem_insertAll {m : MemTable} {calls : List (ℕ × WriteOp)} {e : Entry} :
    e ∈ (m.insertAll calls).table ↔ e ∈ m.table ∨ ∃ c ∈ calls, e = callEntry c := by
  induction calls generalizing m with
  | nil => simp [MemTable.insertAll]
  | cons c calls ih =>
      rw [MemTable.insertAll, List.foldl_cons, ← MemTable.insertAll, ih, MemTable.mem_add,
        List.exists_mem_cons_iff, ← callEntry]
      tauto

/-- What an operation leaves for its key. -/
def WriteOp.result : WriteOp → LookupState
  | .put _ value => .kValue value
  | .delete _ => .kDeleted

theorem callEntry_result (c : ℕ × WriteOp) : (callEntry c).result = c.2.result := by
  obtain ⟨seq, op⟩ := c
  have hmod : packSequenceAndType seq op.type &&& 0xff = op.type.toNat := by
    rw [← packSequenceAndType_mod seq op.type]
    exact Nat.and_two_pow_sub_one_eq_mod _ 8
  rw [Entry.result, extractTag_callEntry, hmod]
  cases op <;> rfl

/-- **A write with a tag not below the others is found.** -/
theorem get_insert_newest {m : MemTable} {seq : ℕ} {op : WriteOp}
    (hbelow : ∀ e ∈ m.table, e.userKey = op.key → extractTag e.1 ≤ extractTag (callEntry (seq, op)).1) :
    (m.insertAll [(seq, op)]).get op.key = op.result := by
  have htable : (m.insertAll [(seq, op)]).table = MemTable.insert (callEntry (seq, op)) m.table := rfl
  have hnew : ∀ e ∈ m.table, e.userKey = (callEntry (seq, op)).userKey →
      extractTag e.1 ≤ extractTag (callEntry (seq, op)).1 := by
    rw [callEntry_userKey]
    exact hbelow
  rw [MemTable.get_eq, htable, firstFor_insert hnew, if_pos (callEntry_userKey _), resultOf,
    callEntry_result]

/-! ### The greatest sequence number of a log -/

/-- The greatest sequence number among calls to the handler; zero if there are none. -/
def greatest : List (ℕ × WriteOp) → ℕ
  | [] => 0
  | c :: calls => max c.1 (greatest calls)

theorem greatest_le_iff {calls : List (ℕ × WriteOp)} {n : ℕ} :
    greatest calls ≤ n ↔ ∀ c ∈ calls, c.1 ≤ n := by
  induction calls with
  | nil => simp [greatest]
  | cons c calls ih => rw [greatest, max_le_iff, ih, List.forall_mem_cons]

theorem le_greatest {calls : List (ℕ × WriteOp)} {c : ℕ × WriteOp} (h : c ∈ calls) :
    c.1 ≤ greatest calls := greatest_le_iff.mp le_rfl c h

theorem greatest_append (calls calls' : List (ℕ × WriteOp)) :
    greatest (calls ++ calls') = max (greatest calls) (greatest calls') := by
  induction calls with
  | nil => exact (Nat.zero_max _).symm
  | cons c calls ih => rw [List.cons_append, greatest, ih, greatest, max_assoc]

namespace WriteBatch

/-- The batch is handed over whole, and a string holds it. -/
def Replayable (batch : WriteBatch) : Prop :=
  batch.iterate.1 = Status.OK ∧ batch.rep.length ≤ maxStringSize

theorem sequence_lt (batch : WriteBatch) : batch.sequence < 2 ^ 64 := decodeFixed_lt 8 _

theorem count_bounds (batch : WriteBatch) : -2 ^ 31 ≤ batch.count ∧ batch.count < 2 ^ 31 := by
  have hlt : batch.storedCount < 2 ^ 32 := decodeFixed_lt 4 _
  unfold count
  split_ifs
  · omega
  · omega

/-- A record takes a byte at least. -/
theorem length_splitRecords_le (input : Bytes) : (splitRecords input).1.length ≤ input.length := by
  induction input using splitRecords.induct with
  | case1 =>
      rw [splitRecords]
      exact le_refl 0
  | case2 tag input s h =>
      rw [splitRecords_error h]
      exact Nat.zero_le _
  | case3 tag input op rest h ih =>
      have hless := readRecord_length h
      rw [splitRecords_cons h, List.length_cons, List.length_cons]
      omega

/-- The operations of a replayable batch are numbered one after the other. -/
theorem Replayable.iterate_eq {batch : WriteBatch} (h : batch.Replayable) :
    ∃ ops : List WriteOp, batch.iterate.2 = numberedFrom batch.sequence ops ∧ batch.count = ops.length := by
  obtain ⟨hcalls, hstatus⟩ := iterateLoop_eq batch.sequence_lt (batch.rep.drop kHeader)
    (batch.count % 2 ^ 64).toNat
  obtain ⟨-, hlen⟩ := hstatus.mp h.1
  rw [List.take_of_length_le hlen.le] at hcalls
  refine ⟨_, hcalls, ?_⟩
  -- a negative count would be more than there are bytes
  obtain ⟨hlow, hhigh⟩ := batch.count_bounds
  have hbytes := length_splitRecords_le (batch.rep.drop kHeader)
  have hstring := h.2
  rw [List.length_drop] at hbytes
  rw [maxStringSize] at hstring
  omega

theorem getLast?_numberedFrom (seq : ℕ) (ops : List WriteOp) :
    (numberedFrom seq ops).getLast? = ops.getLast?.map fun op => ((seq + (ops.length - 1)) % 2 ^ 64, op) := by
  rw [numberedFrom, List.getLast?_eq_getElem?, List.getElem?_mapIdx, List.length_mapIdx,
    List.getLast?_eq_getElem?]

/-- `max_seq` after a replayable batch: the number of its last operation counts. -/
theorem Replayable.seqAfter_eq {batch : WriteBatch} (h : batch.Replayable) (seq : ℕ) :
    batch.seqAfter seq = max seq (greatest batch.iterate.2.getLast?.toList) := by
  obtain ⟨ops, hcalls, hcount⟩ := h.iterate_eq
  rw [hcalls, seqAfter, hcount, getLast?_numberedFrom]
  cases hlast : ops.getLast? with
  | none =>
      obtain rfl := List.getLast?_eq_none_iff.mp hlast
      exact (Nat.max_zero seq).symm
  | some op =>
      have hpos : 0 < ops.length := List.length_pos_of_ne_nil fun hnil => by
        rw [hnil] at hlast
        cases hlast
      have hend : (((batch.sequence : ℤ) + ops.length - 1) % 2 ^ 64).toNat =
          (batch.sequence + (ops.length - 1)) % 2 ^ 64 := by omega
      have htop : greatest ((some op).map fun op =>
          ((batch.sequence + (ops.length - 1)) % 2 ^ 64, op)).toList =
          (batch.sequence + (ops.length - 1)) % 2 ^ 64 := Nat.max_zero _
      rw [if_pos (by omega), hend, htop]
      dsimp only
      split_ifs
      · omega
      · omega

end WriteBatch

namespace DBImpl

/-- A log of replayable batches. -/
def ReplayableLog (b : Bytes) : Prop :=
  ∃ batches : List WriteBatch, Log b (batches.map WriteBatch.rep) ∧ ∀ batch ∈ batches, batch.Replayable

/-- The last operation of a record's batch, with its number. -/
def lastOfRecord (record : Bytes) : Option (ℕ × WriteOp) :=
  match WriteBatch.setContents record with
  | .error _ => none
  | .ok batch => batch.iterate.2.getLast?

/-- The last operations of the batches in a log. -/
def batchEnds (b : Bytes) : List (ℕ × WriteOp) := (readLog b).1.filterMap lastOfRecord

theorem setContents_rep (batch : WriteBatch) : WriteBatch.setContents batch.rep = .ok batch := by
  rw [WriteBatch.setContents, dif_neg (not_lt.mpr batch.header_le)]

theorem replayRecords_seq {batches : List WriteBatch} (h : ∀ b ∈ batches, b.Replayable) (seq : ℕ) :
    (replayRecords seq (batches.map WriteBatch.rep)).2.2 =
      max seq (greatest ((batches.map WriteBatch.rep).filterMap lastOfRecord)) := by
  induction batches generalizing seq with
  | nil => exact (Nat.max_zero _).symm
  | cons b batches ih =>
      have hb := h b List.mem_cons_self
      have hlast : lastOfRecord b.rep = b.iterate.2.getLast? := by
        rw [lastOfRecord, setContents_rep]
      rw [List.map_cons, replayRecords, setContents_rep]
      simp only [hb.1, Status.ok_OK, Bool.not_true, Bool.false_eq_true, if_false]
      rw [ih (fun c hc => h c (List.mem_cons_of_mem _ hc)), hb.seqAfter_eq, List.filterMap_cons, hlast]
      cases b.iterate.2.getLast? with
      | none =>
          change max (max seq 0) _ = max seq _
          rw [Nat.max_zero]
      | some c =>
          change max (max seq (max c.1 0)) _ = max seq (max c.1 _)
          rw [Nat.max_zero, max_assoc]

/-- What the replay of such a log finds. -/
theorem ReplayableLog.replay {b : Bytes} (h : ReplayableLog b) :
    (replayStatus b).ok = true ∧ maxSeqOf b = greatest (batchEnds b) := by
  obtain ⟨batches, hlog, hbatches⟩ := h
  obtain ⟨hstatus, -⟩ := @replayRecords_batches 0 batches fun b hb => by
    rw [(hbatches b hb).1, Status.ok_OK]
  refine ⟨?_, ?_⟩
  · rw [replayStatus, hlog.readLog_eq, hstatus, Status.ok_OK]
  · rw [maxSeqOf, batchEnds, hlog.readLog_eq, replayRecords_seq hbatches, Nat.zero_max]

end DBImpl

/-! ### Several logs -/

/-- The last operations of the batches in the last log. -/
def lastBatchEnds (l : List FileEntry) : List (ℕ × WriteOp) :=
  ((logContents l).getLast?.map DBImpl.batchEnds).getD []

theorem foldl_const_eq {α β : Type} (f : α → β) (n : β) (l : List α) :
    l.foldl (fun _ a => f a) n = (l.getLast?.map f).getD n := by
  induction l generalizing n with
  | nil => rfl
  | cons a l ih =>
      rw [List.foldl_cons, ih, List.getLast?_cons]
      cases l.getLast? <;> rfl

/-- Every log begins anew: the last one decides. -/
theorem lastMaxSeq_eq {l : List FileEntry} (h : ∀ b ∈ logContents l, ReplayableLog b) :
    lastMaxSeq 0 l = greatest (lastBatchEnds l) := by
  rw [lastMaxSeq, foldl_const_eq, lastBatchEnds]
  cases hlast : (logContents l).getLast? with
  | none => rfl
  | some b => exact (h b (List.mem_of_getLast? hlast)).replay.2

/-- `last_seq_` is at least every sequence number in the memtable, and a `Put` or `Delete` with the
next one is what `MemTable::Get` finds for its key. -/
def DBImpl.Current (db : DBImpl) : Prop :=
  (∀ e ∈ db.mem.table, e.seq ≤ db.last_seq) ∧
    ∀ op : WriteOp, (db.mem.add (db.last_seq + 1) op.type op.key op.value).get op.key = op.result

/-- In the 56 bits of a tag the number `n` is above those of the calls; if it does not fit these, it may be
that of a deletion. -/
def Covers (n : ℕ) (calls : List (ℕ × WriteOp)) : Prop :=
  ∀ c ∈ calls, c.1 % 2 ^ 56 < n % 2 ^ 56 ∨
    2 ^ 56 ≤ n ∧ c.1 % 2 ^ 56 = n % 2 ^ 56 ∧ c.2.type = .kTypeDeletion

theorem mem_table_of_eq {m : MemTable} {calls : List (ℕ × WriteOp)} {e : Entry}
    (hmem : m = MemTable.empty.insertAll calls) : e ∈ m.table ↔ ∃ c ∈ calls, e = callEntry c := by
  rw [hmem, mem_insertAll]
  simp

theorem tag_callEntry (c : ℕ × WriteOp) :
    extractTag (callEntry c).1 = 256 * (c.1 % 2 ^ 56) + c.2.type.toNat := by
  rw [extractTag_callEntry, packSequenceAndType_eq, Nat.mul_comm]

/-- An operation of the other type, for the same key. -/
def WriteOp.other : WriteOp → WriteOp
  | .put key _ => .delete key
  | .delete key => .put key []

theorem WriteOp.other_type (op : WriteOp) :
    op.type.toNat = 0 ∧ op.other.type.toNat = 1 ∨ op.type.toNat = 1 ∧ op.other.type.toNat = 0 := by
  cases op with
  | put key value => exact Or.inr ⟨rfl, rfl⟩
  | delete key => exact Or.inl ⟨rfl, rfl⟩

theorem tag_lt_of_other_type {seq seq' type other : ℕ} (htypes : type = 0 ∧ other = 1 ∨ type = 1 ∧ other = 0)
    (h : 256 * seq < 256 * seq' + type) : 256 * seq + other < 256 * seq' + type := by
  rcases htypes with ⟨rfl, rfl⟩ | ⟨rfl, rfl⟩
  · omega
  · omega

theorem WriteOp.result_ne_other {op op' : WriteOp} (h : op.type.toNat = op'.type.toNat) :
    op.result ≠ op'.other.result := by
  cases op with
  | put key value =>
      cases op' with
      | put key' value' => exact fun heq => LookupState.noConfusion heq
      | delete key' => cases h
  | delete key =>
      cases op' with
      | put key' value' => cases h
      | delete key' => exact fun heq => LookupState.noConfusion heq

/-- A write is not found below a higher tag: with the type other than that of the newest entry it would have to
be told from it. -/
theorem exists_hidden {m : MemTable} {calls : List (ℕ × WriteOp)} (hmem : m = MemTable.empty.insertAll calls)
    {n : ℕ} {c : ℕ × WriteOp} (hc : c ∈ calls) (hhigh : 256 * (n % 2 ^ 56) < extractTag (callEntry c).1) :
    ∃ op : WriteOp, (m.insertAll [(n, op)]).get op.key ≠ op.result := by
  obtain ⟨x, hx⟩ : ∃ x, firstFor c.2.key m.table = some x :=
    Option.isSome_iff_exists.mp (List.find?_isSome.mpr ⟨callEntry c, (mem_table_of_eq hmem).mpr ⟨c, hc, rfl⟩,
      decide_eq_true (callEntry_userKey c)⟩)
  obtain ⟨d, hd, rfl⟩ := (mem_table_of_eq hmem).mp (List.mem_of_find?_eq_some hx)
  have hdk : d.2.key = c.2.key := by
    have hkey := List.find?_some hx
    exact (callEntry_userKey d).symm.trans (of_decide_eq_true hkey)
  have htag := tag_le_of_firstFor m.sorted hx ((mem_table_of_eq hmem).mpr ⟨c, hc, rfl⟩) (callEntry_userKey c)
  have hother : d.2.other.key = c.2.key := by
    rw [← hdk]
    cases d.2 <;> rfl
  have htable : (m.insertAll [(n, d.2.other)]).table = MemTable.insert (callEntry (n, d.2.other)) m.table := rfl
  -- what the lookup finds is not below `d`, so it is not the write, but an entry with the tag of `d`
  obtain ⟨y, hy⟩ : ∃ y, firstFor c.2.key (m.insertAll [(n, d.2.other)]).table = some y :=
    Option.isSome_iff_exists.mp (List.find?_isSome.mpr ⟨callEntry d, mem_insertAll.mpr (Or.inl
      ((mem_table_of_eq hmem).mpr ⟨d, hd, rfl⟩)), decide_eq_true ((callEntry_userKey d).trans hdk)⟩)
  have hyd := tag_le_of_firstFor (m.insertAll [(n, d.2.other)]).sorted hy
    (mem_insertAll.mpr (Or.inl ((mem_table_of_eq hmem).mpr ⟨d, hd, rfl⟩))) ((callEntry_userKey d).trans hdk)
  have hbelow : extractTag (callEntry (n, d.2.other)).1 < extractTag (callEntry d).1 := by
    have hle := hhigh.trans_le htag
    rw [tag_callEntry d] at hle ⊢
    rw [tag_callEntry (n, d.2.other)]
    exact tag_lt_of_other_type d.2.other_type hle
  refine ⟨d.2.other, ?_⟩
  rw [hother, MemTable.get_eq, hy]
  have hyk : y.userKey = c.2.key := by
    have hkey := List.find?_some hy
    exact of_decide_eq_true hkey
  obtain ⟨e, he, rfl⟩ | ⟨e, he, rfl⟩ : (∃ e ∈ calls, y = callEntry e) ∨ ∃ e ∈ [(n, d.2.other)], y = callEntry e := by
    rw [← mem_table_of_eq hmem]
    exact mem_insertAll.mp (List.mem_of_find?_eq_some hy)
  · have hed := tag_le_of_firstFor m.sorted hx ((mem_table_of_eq hmem).mpr ⟨e, he, rfl⟩) hyk
    have heq := le_antisymm hed hyd
    rw [extractTag_callEntry, extractTag_callEntry] at heq
    rw [resultOf, callEntry_result]
    apply WriteOp.result_ne_other
    rw [← packSequenceAndType_mod e.1 e.2.type, heq, packSequenceAndType_mod]
  · obtain rfl := List.mem_singleton.mp he
    exact absurd hyd (not_le.mpr hbelow)

/-- When the next write is found. -/
theorem DBImpl.current_iff {db : DBImpl} {calls : List (ℕ × WriteOp)}
    (hmem : db.mem = MemTable.empty.insertAll calls) : db.Current ↔ Covers (db.last_seq + 1) calls := by
  constructor
  · rintro ⟨hle, hget⟩ c hc
    have hseq := hle _ ((mem_table_of_eq hmem).mpr ⟨c, hc, rfl⟩)
    rw [callEntry_seq_mod] at hseq
    by_contra hnot
    have hhigh : 256 * ((db.last_seq + 1) % 2 ^ 56) < extractTag (callEntry c).1 := by
      rw [tag_callEntry]
      rw [not_or, not_and, not_and] at hnot
      obtain ⟨hge, htype⟩ := hnot
      by_cases heq : c.1 % 2 ^ 56 = (db.last_seq + 1) % 2 ^ 56
      · -- the next number is above those of the memtable, so it does not fit the 56 bits
        have hput := htype (by omega) heq
        cases hc2 : c.2 with
        | put key value =>
            simp only [WriteOp.type, ValueType.toNat]
            omega
        | delete key =>
            rw [hc2] at hput
            exact absurd rfl hput
      · omega
    obtain ⟨op, hop⟩ := exists_hidden hmem hc hhigh
    exact hop (hget op)
  · intro hcovers
    constructor
    · intro e he
      obtain ⟨c, hc, rfl⟩ := (mem_table_of_eq hmem).mp he
      rw [callEntry_seq_mod]
      rcases hcovers c hc with hlt | ⟨hwide, -⟩
      · omega
      · omega
    · intro op
      apply @get_insert_newest db.mem (db.last_seq + 1)
      intro e he _
      obtain ⟨c, hc, rfl⟩ := (mem_table_of_eq hmem).mp he
      rw [tag_callEntry, tag_callEntry]
      rcases hcovers c hc with hlt | ⟨-, heq, htype⟩
      · have hsmall : c.2.type.toNat < 256 := c.2.type.toNat_lt
        dsimp only
        omega
      · rw [heq, htype]
        exact Nat.add_le_add_left (Nat.zero_le _) _

/-- A directory with tables that open and logs of replayable batches. -/
structure Openable (dbname : Bytes) (fs : FileSystem) (l : List FileEntry) : Prop where
  dir : Dir dbname fs l
  number : ∀ p ∈ l, p.1.number + 2 < 2 ^ 64
  tables : ∀ b ∈ tableContents l, ∃ t, Opens b t
  logs : ∀ b ∈ logContents l, ReplayableLog b

variable {dbname : Bytes} {fs : FileSystem} {l : List FileEntry}

/-- Such a directory is opened, with the calls of all its logs and the numbers of the last one. -/
theorem Openable.run (h : Openable dbname fs l) :
    ∃ db fs', (DBImpl.openDB dbname).run (disk unbounded) fs = .done (.ok db) fs' ∧
      ((maxLogNumber 0 l = 0 ∧ db.mem = MemTable.empty ∧ db.last_seq = 0) ∨
        (maxLogNumber 0 l ≠ 0 ∧ db.mem = MemTable.empty.insertAll (logCalls l) ∧
          db.last_seq = greatest (lastBatchEnds l))) := by
  have hopen : ∃ r fs', (DBImpl.openDB dbname).run (disk unbounded) fs = .done r fs' ∧
      ∃ db, r = .ok db ∧ ((maxLogNumber 0 l = 0 ∧ db.mem = MemTable.empty ∧ db.last_seq = 0) ∨
        (maxLogNumber 0 l ≠ 0 ∧ db.mem = MemTable.empty.insertAll (logCalls l) ∧
          db.last_seq = greatest (lastBatchEnds l))) := by
    refine Prog.run_of_wpg unbounded_ok_isSome (openDB_wpg h.dir h.number (fun _ _ _ _ _ => trivial)
      (fun _ _ _ _ => trivial) (fun _ _ _ => trivial) ?_ ?_ ?_ (C := fun _ => True))
    · intro b hb f hf
      obtain ⟨t, ht⟩ := h.tables b hb
      cases hf.symm.trans ht
    · rintro fs' l' s hs - - (⟨b, hb, herr⟩ | ⟨b, hb, rfl⟩)
      · obtain ⟨t, ht⟩ := h.tables b hb
        cases herr.symm.trans ht
      · rw [(h.logs b hb).replay.1] at hs
        cases hs
    · intro fs' l' db hopened
      refine ⟨db, rfl, ?_⟩
      rcases hopened.contents with ⟨hmax, -, -, -, hmem, hseq⟩ | ⟨hmax, -, -, -, hmem, hseq⟩
      · exact Or.inl ⟨hmax, hmem, hseq⟩
      · rw [lastMaxSeq_eq h.logs] at hseq
        exact Or.inr ⟨hmax, hmem, hseq⟩
  obtain ⟨r, fs', hrun, db, rfl, hdb⟩ := hopen
  exact ⟨db, fs', hrun, hdb⟩

/-- **What `Init` makes of the sequence numbers**: `last_seq_` covers the memtable exactly if no log is
replayed, or the number behind those of the last log covers the calls of all logs. -/
theorem openDB_current_iff (h : Openable dbname fs l) :
    ∃ db fs', (DBImpl.openDB dbname).run (disk unbounded) fs = .done (.ok db) fs' ∧
      (db.Current ↔ maxLogNumber 0 l = 0 ∨ Covers (greatest (lastBatchEnds l) + 1) (logCalls l)) := by
  obtain ⟨db, fs', hrun, hdb⟩ := h.run
  refine ⟨db, fs', hrun, ?_⟩
  rcases hdb with ⟨hmax, hmem, -⟩ | ⟨hmax, hmem, hseq⟩
  · rw [@DBImpl.current_iff db [] hmem]
    exact iff_of_true (fun c hc => by cases hc) (Or.inl hmax)
  · rw [DBImpl.current_iff hmem, hseq]
    exact ⟨Or.inr, fun hcovers => hcovers.resolve_left hmax⟩

theorem deletionAt_replayable {seq : ℕ} (h : seq < 2 ^ 64) : (deletionAt seq).Replayable := by
  refine ⟨congrArg Prod.fst (iterate_deletionAt h), ?_⟩
  have hlen := putVarint32_length_le 1
  simp only [deletionAt, WriteBatch.ofOp_rep, WriteOp.encode, putLengthPrefixedSlice, List.length_append,
    List.length_cons, List.length_nil, Nat.zero_add, encodeFixed64_length, encodeFixed32_length, maxStringSize]
  omega

section

variable {b : Bytes} {seqs : List ℕ} (hlog : Log b (seqs.map fun seq => (deletionAt seq).rep))
  (hseqs : ∀ seq ∈ seqs, seq < 2 ^ 64)

include hlog hseqs

theorem replayableLog_deletions : ReplayableLog b := by
  refine ⟨seqs.map deletionAt, ?_, fun batch hbatch => ?_⟩
  · rwa [List.map_map]
  · obtain ⟨seq, hseq, rfl⟩ := List.mem_map.mp hbatch
    exact deletionAt_replayable (hseqs seq hseq)

theorem callsOf_deletions : callsOf b = seqs.map fun seq => (seq, .delete [1]) := by
  have hbatches := (@replayRecords_batches 0 (seqs.map deletionAt) (by
    intro b hb
    obtain ⟨seq, hseq, rfl⟩ := List.mem_map.mp hb
    rw [iterate_deletionAt (hseqs seq hseq), Status.ok_OK])).2
  rw [List.map_map] at hbatches
  rw [callsOf, hlog.readLog_eq]
  refine hbatches.trans ?_
  rw [List.flatMap_map, ← List.flatMap_pure_eq_map]
  refine List.flatMap_congr fun seq hseq => ?_
  rw [iterate_deletionAt (hseqs seq hseq)]
  rfl

theorem batchEnds_deletions : batchEnds b = seqs.map fun seq => (seq, .delete [1]) := by
  rw [batchEnds, hlog.readLog_eq, List.filterMap_map, ← List.filterMap_eq_map]
  refine List.filterMap_congr fun seq hseq => ?_
  rw [Function.comp_apply, lastOfRecord, setContents_rep]
  dsimp only
  rw [iterate_deletionAt (hseqs seq hseq)]
  rfl

end

/-- A directory with two logs of deletions with the given numbers. -/
theorem exists_two_logs (seqs seqs' : List ℕ) (hseqs : ∀ seq ∈ seqs, seq < 2 ^ 64)
    (hseqs' : ∀ seq ∈ seqs', seq < 2 ^ 64) :
    ∃ fs b b', Openable (ascii "db") fs [(⟨1, .kLogFile⟩, b), (⟨2, .kLogFile⟩, b')] ∧
      logCalls [(⟨1, .kLogFile⟩, b), (⟨2, .kLogFile⟩, b')] =
        (seqs ++ seqs').map (fun seq => (seq, .delete [1])) ∧
      lastBatchEnds [(⟨1, .kLogFile⟩, b), (⟨2, .kLogFile⟩, b')] = seqs'.map fun seq => (seq, .delete [1]) := by
  obtain ⟨fs₀, hlog⟩ := exists_log (ascii "db/1.log") (seqs.map fun seq => (deletionAt seq).rep)
  obtain ⟨fs₁, hlog'⟩ := exists_log (ascii "db/2.log") (seqs'.map fun seq => (deletionAt seq).rep)
  obtain ⟨b, hb⟩ : ∃ b, b = FileSystem.get fs₀ (ascii "db/1.log") := ⟨_, rfl⟩
  obtain ⟨b', hb'⟩ : ∃ b', b' = FileSystem.get fs₁ (ascii "db/2.log") := ⟨_, rfl⟩
  rw [← hb] at hlog
  rw [← hb'] at hlog'
  have h1 := @Dir.insert_new (ascii "db") ∅ [] ⟨1, .kLogFile⟩ Dir.empty (by decide) (by simp) b
  have h2 := @Dir.insert_new (ascii "db") _ _ ⟨2, .kLogFile⟩ h1 (by decide) (by simp) b'
  refine ⟨_, b, b', ⟨h2, by simp, ?_, ?_⟩, ?_, batchEnds_deletions hlog' hseqs'⟩
  · intro c hc
    cases hc
  · intro c hc
    rcases List.mem_cons.mp hc with rfl | hc
    · exact replayableLog_deletions hlog hseqs
    · obtain rfl := List.mem_singleton.mp hc
      exact replayableLog_deletions hlog' hseqs'
  · change callsOf b ++ (callsOf b' ++ []) = _
    rw [List.append_nil, callsOf_deletions hlog hseqs, callsOf_deletions hlog' hseqs', List.map_append]

theorem openDB_current_iff_two_logs :
    ∃ fs l db fs', Openable (ascii "db") fs l ∧ logCalls l = [(10, .delete [1]), (11, .delete [1])] ∧
      (DBImpl.openDB (ascii "db")).run (disk unbounded) fs = .done (.ok db) fs' ∧ db.Current := by
  obtain ⟨fs, b, b', hopenable, hcalls, hends⟩ := exists_two_logs [10] [11] (by simp) (by simp)
  obtain ⟨db, fs', hrun, hiff⟩ := openDB_current_iff hopenable
  refine ⟨fs, _, db, fs', hopenable, hcalls, hrun, hiff.mpr (Or.inr ?_)⟩
  rw [hcalls, hends]
  simp [Covers, greatest]

/-- An empty log behind another one takes `last_seq_` back to zero. -/
theorem empty_log_resets_last_seq :
    ¬ ∀ (dbname : Bytes) (fs fs' : FileSystem) (l : List FileEntry) (db : DBImpl),
      Openable dbname fs l → (DBImpl.openDB dbname).run (disk unbounded) fs = .done (.ok db) fs' →
      db.Current := by
  intro hall
  obtain ⟨fs, b, b', hopenable, hcalls, hends⟩ := exists_two_logs [10] [] (by simp) (by simp)
  obtain ⟨db, fs', hrun, hdb⟩ := hopenable.run
  have hcurrent := hall _ fs fs' _ db hopenable hrun
  rcases hdb with ⟨hmax, -⟩ | ⟨-, hmem, hseq⟩
  · exact absurd hmax (by simp [maxLogNumber])
  · have hmemc : callEntry (10, .delete [1]) ∈ db.mem.table := by
      rw [hmem, hcalls]
      exact mem_insertAll.mpr (Or.inr ⟨_, List.mem_singleton.mpr rfl, rfl⟩)
    have hle := hcurrent.1 _ hmemc
    rw [callEntry_seq (by norm_num), hseq, hends] at hle
    exact absurd hle (by decide)

end MiniLevelDB
