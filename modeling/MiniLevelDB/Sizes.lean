import MiniLevelDB.Contents
import MiniLevelDB.FileNumbers
import MiniLevelDB.LogFragments

/-! # The sizes of the files

A table and a log are at most as large, up to a constant factor, as the memory their calls take in a
memtable.  So a call whose layers stay small (`Layers.Small`) has room for what it appends, opens its
tables without a fault, and ends (`Holds.exists_done`). -/

namespace MiniLevelDB

open Effect
open LogWriter (recordBytes)

/-! ### Records -/

/-- Every turn of the writer's loop costs thirteen bytes at most beside the payload. -/
theorem lastStop_fragments_le (o : ℕ) (data : Bytes) (first : Bool) :
    lastStop o (fragments o data first) ≤
      o + data.length + 13 * (2 * data.length +
        (if o % kBlockSize + kHeaderSize = kBlockSize then 1 else 0) + 1) := by
  induction o, data, first using fragments.induct with
  | case1 o data first ih =>
      have hstart := (fragStart_bounds o).2.1
      have hstop := firstFragment_stop o data first
      have hlen := fragLen_le o data
      rw [fragments, lastStop_cons]
      simp only [kHeaderSize_eq] at hstart hstop
      by_cases hlt : fragLen o data < data.length
      · have hrest := ih hlt
        have hless := fragments_decreases hlt
        rw [List.length_drop] at hrest
        rw [← firstFragment_stop o data first] at hless
        rw [if_pos hlt]
        omega
      · rw [if_neg hlt, lastStop_nil]
        omega

theorem recordBytes_length_le (o : ℕ) (data : Bytes) :
    (recordBytes o data).length ≤ 27 * data.length + 26 := by
  have hstop := lastStop_fragments_le o data true
  have hlen := (placed_fragments o data true).render_length
  rw [recordBytes]
  split_ifs at hstop
  · omega
  · omega

theorem recordOf_length_le (c : ℕ × WriteOp) :
    (recordOf c).length ≤ c.2.key.length + c.2.value.length + 23 := by
  obtain ⟨seq, op⟩ := c
  rw [recordOf, WriteBatch.ofOp_rep]
  cases op with
  | put key value =>
      have h1 := putVarint32_length_le key.length
      have h2 := putVarint32_length_le value.length
      simp only [WriteOp.encode, WriteOp.key, WriteOp.value, putLengthPrefixedSlice, List.length_append,
        List.length_cons, encodeFixed64_length, encodeFixed32_length]
      omega
  | delete key =>
      have h1 := putVarint32_length_le key.length
      simp only [WriteOp.encode, WriteOp.key, WriteOp.value, putLengthPrefixedSlice, List.length_append,
        List.length_cons, encodeFixed64_length, encodeFixed32_length]
      omega

theorem callEntry_footprint (c : ℕ × WriteOp) :
    (callEntry c).footprint = c.2.key.length + c.2.value.length + 136 := by
  rw [callEntry, entryOf, Entry.footprint, internalKey_length]
  dsimp only
  omega

/-- The memory of a memtable with one more call. -/
theorem memoryUsage_concat (calls : List (ℕ × WriteOp)) (c : ℕ × WriteOp) :
    (memOf (calls ++ [c])).approximateMemoryUsage =
      (memOf calls).approximateMemoryUsage + (callEntry c).footprint := by
  have hperm := ((List.perm_orderedInsert Entry.Le (callEntry c) (memOf calls).table).map
    Entry.footprint).sum_eq
  have htable : (memOf (calls ++ [c])).table = MemTable.insert (callEntry c) (memOf calls).table := by
    rw [memOf_concat]
    rfl
  rw [MemTable.approximateMemoryUsage_eq, MemTable.approximateMemoryUsage_eq, htable, MemTable.insert,
    hperm, List.map_cons, List.sum_cons]
  omega

/-! ### Tables -/

theorem entries_le_footprint (es : List Entry) : 128 * es.length ≤ (es.map Entry.footprint).sum := by
  induction es with
  | nil => exact le_refl 0
  | cons e es ih =>
      rw [List.length_cons, List.map_cons, List.sum_cons, Entry.footprint]
      omega

/-- No block is empty. -/
theorem length_le_length_flatten {bs : List (List Entry)} (h : ∀ b ∈ bs, b ≠ []) :
    bs.length ≤ bs.flatten.length := by
  induction bs with
  | nil => exact le_refl 0
  | cons b bs ih =>
      have hb := List.length_pos_of_ne_nil (h b List.mem_cons_self)
      have hrest := ih fun c hc => h c (List.mem_cons_of_mem _ hc)
      rw [List.flatten_cons, List.length_append, List.length_cons]
      omega

theorem dataBlocks_length_le (es : List Entry) : (dataBlocks es).length ≤ es.length := by
  have h := length_le_length_flatten fun b hb => @ne_nil_of_mem_cutBlocks [] es b hb
  rwa [show cutBlocks [] es = dataBlocks es from rfl, dataBlocks_flatten] at h

theorem dataBytes_length_le_footprint (bs : List (List Entry)) :
    (dataBytes bs).length ≤ (bs.flatten.map Entry.footprint).sum + 9 * bs.length := by
  induction bs with
  | nil => exact le_refl 0
  | cons b bs ih =>
      have hcost : (b.map entryCost).sum ≤ (b.map Entry.footprint).sum :=
        List.sum_le_sum fun e _ => entryCost_le_footprint e
      have hblock := blockContents_length_le b
      rw [dataBytes] at ih
      rw [dataBytes, List.flatMap_cons, List.length_append, withTrailer_length, List.flatten_cons,
        List.map_append, List.sum_append, List.length_cons, kBlockTrailerSize]
      omega

/-- The size estimate of a block is its size. -/
theorem sizeEstimate_eq (es : List Entry) : sizeEstimate es = (blockContents es).length := by
  rw [blockContents_length, sizeEstimate, BlockBuilder.addAll_eq, BlockBuilder.currentSizeEstimate]
  dsimp only
  rw [List.length_map, restartsOf_length]
  omega

theorem blockContents_concat_le (es : List Entry) (e : Entry) :
    (blockContents (es ++ [e])).length ≤ (blockContents es).length + entryCost e := by
  have hentry := entryBytes_length_le (sharedAt es.length (lastKey [] es) e.1) e.1 e.2
  have hcount := restartCount_succ es.length
  rw [blockContents_length, blockContents_length, encodeEntries_append, encodeEntries, encodeEntries,
    List.append_nil, List.length_append, List.length_append, List.length_singleton, Nat.zero_add, entryCost]
  split_ifs at hcount
  · omega
  · omega

/-- Only its last entry can make a block larger than the block size. -/
theorem length_of_mem_cutBlocks {cur es b : List Entry} {n : ℕ} (hb : b ∈ cutBlocks cur es)
    (hcur : (blockContents cur).length < TableBuilder.kBlockSize) (hes : ∀ e ∈ es, entryCost e ≤ n) :
    (blockContents b).length < TableBuilder.kBlockSize + n := by
  induction es generalizing cur with
  | nil =>
      rw [cutBlocks] at hb
      split_ifs at hb
      · cases hb
      · obtain rfl := List.mem_singleton.mp hb
        exact hcur.trans_le (Nat.le_add_right _ n)
  | cons e es ih =>
      have hrest : ∀ e' ∈ es, entryCost e' ≤ n := fun e' he' => hes e' (List.mem_cons_of_mem _ he')
      have hconcat := (blockContents_concat_le cur e).trans (Nat.add_le_add_left (hes e List.mem_cons_self) _)
      rw [cutBlocks] at hb
      split_ifs at hb with hfull
      · rcases List.mem_cons.mp hb with rfl | hb
        · omega
        · exact ih hb (by decide) hrest
      · rw [sizeEstimate_eq] at hfull
        exact ih hb (by omega) hrest

/-- A table takes at most three times the memory of its entries. -/
theorem tableBytes_length_le (es : List Entry) :
    (tableBytes es).length ≤ 3 * (es.map Entry.footprint).sum + 57 := by
  have hdata := dataBytes_length_le_footprint (dataBlocks es)
  have hindex := blockContents_length_le (indexEntries 0 (dataBlocks es))
  have hcost := indexEntries_cost_le 0 fun b hb => @ne_nil_of_mem_cutBlocks [] es b hb
  have hblocks := dataBlocks_length_le es
  have hentries := entries_le_footprint es
  rw [show cutBlocks [] es = dataBlocks es from rfl] at hcost
  rw [dataBlocks_flatten] at hcost hdata
  rw [tableBytes_length, indexContents, kBlockTrailerSize, Footer.kEncodedLength,
    BlockHandle.kMaxEncodedLength]
  omega

/-- The table of the calls is opened without a fault. -/
def Mountable (calls : List (ℕ × WriteOp)) : Prop := FewBlocks (memOf calls).table

theorem Mountable.load {calls : List (ℕ × WriteOp)} (h : Mountable calls) (hlen : (tableFor calls).length < 2 ^ 63) :
    ∃ t, Table.load (RFile.ofBytes (tableFor calls)) = .ok (.ok t) := FewBlocks.load h hlen

/-- Few enough calls for a table of any use. -/
def SmallCalls (calls : List (ℕ × WriteOp)) : Prop := (memOf calls).approximateMemoryUsage < 2 ^ 40

theorem SmallCalls.mountable {calls : List (ℕ × WriteOp)} (h : SmallCalls calls) : Mountable calls := by
  have hblocks := dataBlocks_length_le (memOf calls).table
  have hentries := entries_le_footprint (memOf calls).table
  rw [SmallCalls, MemTable.approximateMemoryUsage_eq] at h
  have hbytes := tableBytes_length_le (memOf calls).table
  rw [tableBytes_length] at hbytes
  rw [Mountable, FewBlocks, restartCount, kRestartInterval, maxStringSize]
  omega

theorem SmallCalls.table_lt {calls : List (ℕ × WriteOp)} (h : SmallCalls calls) :
    (tableFor calls).length < 2 ^ 63 := by
  have hlen := tableBytes_length_le (memOf calls).table
  rw [SmallCalls, MemTable.approximateMemoryUsage_eq] at h
  rw [tableFor]
  omega

/-- The memtable of each layer is small. -/
def Layers.Small (L : Layers) : Prop := ∀ calls ∈ L.newestFirst, SmallCalls calls

/-! ### Logs -/

/-- The log has grown with the calls in it only. -/
def Compact (l : List FileEntry) (L : Layers) : Prop :=
  ∀ b ∈ logContents l, b.length ≤ 27 * (memOf L.current).approximateMemoryUsage

theorem compact_start : Compact [] Layers.empty := fun _ h => by cases h

theorem recordBytes_recordOf_le (o : ℕ) (c : ℕ × WriteOp) :
    (recordBytes o (recordOf c)).length ≤ 27 * (callEntry c).footprint := by
  have hbytes := recordBytes_length_le o (recordOf c)
  have hrecord := recordOf_length_le c
  rw [callEntry_footprint]
  omega

theorem Compact.cutting {l l' : List FileEntry} {L : Layers} (h : Compact l L)
    (hcut : List.Forall₂ Cutting l l') : Compact l' L := by
  intro b' hb'
  obtain ⟨p, hp, htype, p', rfl, hpp⟩ := logContents_cutting hcut hb'
  have hlen := h p.2 (mem_logContents hp htype)
  rcases hpp with rfl | ⟨-, -, -, hprefix, -⟩
  · exact hlen
  · exact hprefix.length_le.trans hlen

theorem Tidy.logContents_eq {l : List FileEntry} {n : ℕ} {b : Bytes} (h : Tidy l)
    (hb : (⟨n, .kLogFile⟩, b) ∈ l) : logContents l = [b] := by
  rw [logContents, h.log_eq hb]
  rfl

/-- The log is compact if that of the open database is. -/
theorem Holds.compact {dbname : Bytes} {fs : FileSystem} {db : DBImpl} {l : List FileEntry} {L : Layers}
    {b : Bytes} (h : Holds dbname ⟨fs, some db⟩ l L) (hb : (⟨db.log_number, .kLogFile⟩, b) ∈ l)
    (hle : b.length ≤ 27 * db.mem.approximateMemoryUsage) : Compact l L := by
  intro c hc
  rw [h.sound.tidy.logContents_eq hb] at hc
  obtain rfl := List.mem_singleton.mp hc
  rw [← (h.serving db rfl).mem]
  exact hle

/-- The log with one more record. -/
theorem Compact.logged {dbname : Bytes} {fs : FileSystem} {db : DBImpl} {l : List FileEntry} {L : Layers}
    {op : WriteOp} {b : Bytes} (h : Compact l L) (hholds : Holds dbname ⟨fs, some db⟩ l L)
    (hfits : op.Fits) (hseq : db.last_seq + 1 < 2 ^ 64) (hb : (⟨db.log_number, .kLogFile⟩, b) ∈ l) :
    (b ++ recordBytes b.length (db.batchOf op).rep).length ≤
      27 * (db.memAfter op).approximateMemoryUsage := by
  have hserving := hholds.serving db rfl
  have hlen := h b (by rw [hholds.sound.tidy.logContents_eq hb]; exact List.mem_singleton.mpr rfl)
  have hrecord := recordBytes_recordOf_le b.length (db.last_seq + 1, op)
  rw [hserving.memAfter hfits hseq, Layers.write, memoryUsage_concat, DBImpl.batchOf_rep op hseq,
    List.length_append]
  omega

/-- A call that ends keeps the log compact. -/
theorem compact_ends {dbname : Bytes} {w : World} {fs : FileSystem} {l l' : List FileEntry} {L L' : Layers}
    {call : Call} {s : Status} {db' : Option DBImpl} (h : Holds dbname w l L) (hcompact : Compact l L)
    (hrep : Representable w call) (hends : Ends dbname fs l w.db call s l' db')
    (hturns : Turns L w.db call s L' db') (h' : Holds dbname ⟨fs, db'⟩ l' L') : Compact l' L' := by
  obtain ⟨fs₀, open?⟩ := w
  cases hends with
  | @opened l' db' hopened =>
      obtain rfl : L' = L := by cases hturns; rfl
      rcases hopened.contents with ⟨hmax, rfl, -⟩ | ⟨-, hcut, -⟩
      · obtain ⟨b, hb, -⟩ := hopened.log
        apply h'.compact hb
        have hnil := h.sound.tidy.no_log hmax
        have hb := mem_ofType.mpr hb
        rw [ofType_append, ofType_kept (by decide), hnil] at hb
        obtain rfl : b = [] := congrArg Prod.snd (List.mem_singleton.mp hb)
        exact Nat.zero_le _
      · have hkept : Compact (l.filter MiniLevelDB.kept) L' := by
          intro b hb
          rw [logContents, ofType_kept (by decide)] at hb
          exact hcompact b hb
        exact hkept.cutting (hcut.imp fun _ _ => Cut.cutting)
  | refused _ _ _ => cases hturns
  | @rejected db db' op b hb hiter _ _ =>
      rw [DBImpl.batchOf_iterate hrep.1 (hrep.2 db rfl)] at hiter
      cases hiter
  | @written db db' op b hb _ hlogged _ _ =>
      have hlen := hcompact.logged h hrep.1 (hrep.2 db rfl) hb
      apply h'.compact hlogged.standing.log_mem
      rw [hlogged.mem]
      exact hlen
  | @filled db db₁ db' fs₁ op b _ _ _ _ _ _ hflushed =>
      exact h'.compact hflushed.standing.log_mem (Nat.zero_le _)
  | @flushed db db' _ _ hflushed => exact h'.compact hflushed.standing.log_mem (Nat.zero_le _)
  | @unchanged db b _ hst =>
      have hlen := hcompact b (by
        rw [h.sound.tidy.logContents_eq hst.log_mem]
        exact List.mem_singleton.mpr rfl)
      rw [← (h.serving db rfl).mem] at hlen
      exact h'.compact hst.log_mem hlen
  | closed =>
      obtain rfl : L' = L := by cases hturns; rfl
      exact hcompact

/-! ### Calls that end -/

/-- The layers are small, and stay so with the write. -/
def SmallWith (L : Layers) (db : Option DBImpl) (call : Call) : Prop :=
  L.Small ∧ ∀ db₀ op, db = some db₀ → call = .perform op → (L.write (db₀.last_seq + 1) op).Small

section

variable {dbname : Bytes} {w : World} {l : List FileEntry} {L : Layers} {call : Call}

theorem Layers.Small.current (h : L.Small) : SmallCalls L.current :=
  h _ (Layers.mem_newestFirst.mpr (Or.inl rfl))

theorem Layers.Small.with (h : L.Small) {db : Option DBImpl} (hcall : ∀ op, call ≠ .perform op) :
    SmallWith L db call := ⟨h, fun _ op _ heq => absurd heq (hcall op)⟩

/-- Small tables open without a fault. -/
theorem Holds.not_faults (h : Holds dbname w l L) (hrep : Representable w call)
    (hsmall : SmallWith L w.db call) : ¬ Faults l w.db call := by
  rintro ⟨b, hloads, f, hf⟩
  have hload : ∀ calls, SmallCalls calls → Table.load (RFile.ofBytes (tableFor calls)) ≠ .error f := by
    intro calls hcalls hfault
    obtain ⟨t, ht⟩ := hcalls.mountable.load hcalls.table_lt
    rw [ht] at hfault
    cases hfault
  obtain ⟨fs, open?⟩ := w
  cases hloads with
  | mounted hb =>
      rw [h.stores.tables] at hb
      obtain ⟨calls, hcalls, rfl⟩ := List.mem_map.mp hb
      exact hload calls (hsmall.1 _ (Layers.mem_newestFirst.mpr (Or.inr hcalls))) hf
  | @filled db op _ =>
      rw [(h.serving db rfl).memAfter hrep.1 (hrep.2 db rfl)] at hf
      exact hload _ (hsmall.2 db op rfl rfl).current hf
  | @flushed db _ =>
      rw [(h.serving db rfl).mem] at hf
      exact hload _ hsmall.1.current hf

/-- Small layers leave room in the files. -/
theorem Holds.hasRoom (h : Holds dbname w l L) (hcompact : Compact l L) (hrep : Representable w call)
    (hsmall : SmallWith L w.db call) : HasRoom l w.db call := by
  obtain ⟨fs, open?⟩ := w
  cases open? with
  | none => trivial
  | some db =>
      cases call with
      | openDB => trivial
      | perform op =>
          have hafter := (h.serving db rfl).memAfter hrep.1 (hrep.2 db rfl)
          have hcurrent := (hsmall.2 db op rfl rfl).current
          constructor
          · intro b hb
            have hlen := hcompact.logged h hrep.1 (hrep.2 db rfl) hb
            rw [SmallCalls, ← hafter] at hcurrent
            rw [List.length_append] at hlen
            omega
          · rw [hafter]
            exact hcurrent.table_lt
      | flush =>
          change (tableBytes db.mem.table).length < 2 ^ 63
          rw [(h.serving db rfl).mem]
          exact hsmall.1.current.table_lt
      | close => trivial

theorem Turns.small {db db' : Option DBImpl} {s : Status} {L' : Layers} (h : Turns L db call s L' db')
    (hsmall : SmallWith L db call) : L'.Small := by
  have hflushed : ∀ {L : Layers}, L.Small → L.flushed.Small := by
    intro L hL calls hcalls
    rcases (Layers.Flushes.flushed : L.Flushes L.flushed).subset hcalls with hcalls | rfl
    · exact hL calls hcalls
    · exact (by decide : (memOf []).approximateMemoryUsage < 2 ^ 40)
  cases h with
  | opened => exact hsmall.1
  | @written db _ op => exact hsmall.2 db op rfl rfl
  | @filled db _ op => exact hflushed (hsmall.2 db op rfl rfl)
  | flushed => exact hflushed hsmall.1
  | unchanged => exact hsmall.1
  | closed => exact hsmall.1

/-- What is kept up in runs without crashes: the layers of the files, how many file numbers are taken, and
that everything is small. -/
structure Steady (dbname : Bytes) (w : World) (l : List FileEntry) (L : Layers) (n : ℕ) : Prop where
  holds : Holds dbname w l L
  numbered : Numbered w l n
  compact : Compact l L
  small : L.Small

theorem steady_start {fs : FileSystem} (hdir : Dir dbname fs []) :
    Steady dbname ⟨fs, none⟩ [] Layers.empty 2 where
  holds := holds_start hdir
  numbered := numbered_start fs
  compact := compact_start
  small := by
    intro calls hcalls
    obtain rfl := List.mem_singleton.mp hcalls
    exact (by decide : (memOf []).approximateMemoryUsage < 2 ^ 40)

/-- **A call that does not fault ends**, and the log stays compact. -/
theorem Holds.exists_done {n : ℕ} {p : FileProg (Status × Option DBImpl)} (h : Holds dbname w l L)
    (hnumbered : Numbered w l n) (hcompact : Compact l L) (hn : n + 2 < 2 ^ 64) (hrep : Representable w call)
    (hfault : ¬ Faults l w.db call) (hhas : HasRoom l w.db call) (hp : call.program dbname w.db = some p) :
    ∃ s db' fs' l' L', p.run (disk offsetLimit) w.fs = .done (s, db') fs' ∧ Turns L w.db call s L' db' ∧
      Holds dbname ⟨fs', db'⟩ l' L' ∧ Numbered ⟨fs', db'⟩ l' (n + call.numbers) ∧ Compact l' L' := by
  have hroom := hnumbered.leavesRoom h.sound.rests.1 hn
  obtain ⟨s, db', fs', hrun, l', hdir', hends⟩ := call_done h.sound.rests hroom hp hfault hhas
  obtain ⟨L', hturns, hholds⟩ := ends_holds h hroom hrep hdir' hends
  refine ⟨s, db', fs', l', L', hrun, hturns, hholds, ?_, ?_⟩
  · have hbecomes : Becomes dbname w l call (some s) ⟨fs', db'⟩ l' := Or.inl ⟨s, rfl, hends⟩
    exact numbered_step h.sound hroom hnumbered hbecomes
  · exact compact_ends h hcompact hrep hends hturns hholds

/-- **A call with small layers ends.** -/
theorem Steady.exists_done {n : ℕ} {p : FileProg (Status × Option DBImpl)} (h : Steady dbname w l L n)
    (hn : n + 2 < 2 ^ 64) (hrep : Representable w call) (hsmall : SmallWith L w.db call)
    (hp : call.program dbname w.db = some p) :
    ∃ s db' fs' l' L', p.run (disk offsetLimit) w.fs = .done (s, db') fs' ∧ Turns L w.db call s L' db' ∧
      Steady dbname ⟨fs', db'⟩ l' L' (n + call.numbers) := by
  obtain ⟨s, db', fs', l', L', hrun, hturns, hholds, hnumbered, hcompact⟩ :=
    h.holds.exists_done h.numbered h.compact hn hrep (h.holds.not_faults hrep hsmall)
      (h.holds.hasRoom h.compact hrep hsmall) hp
  exact ⟨s, db', fs', l', L', hrun, hturns, hholds, hnumbered, hcompact, hturns.small hsmall⟩

/-- A run goes on with it. -/
theorem Steady.exists_step {n : ℕ} {p : FileProg (Status × Option DBImpl)} {P : World → Call → Prop}
    {made : List (Call × Option Status)} (h : Steady dbname w l L n) (hreach : Reach dbname P w made)
    (hP : P w call) (hn : n + 2 < 2 ^ 64) (hrep : Representable w call) (hsmall : SmallWith L w.db call)
    (hp : call.program dbname w.db = some p) :
    ∃ s w' l' L', Reach dbname P w' (made ++ [(call, some s)]) ∧ Turns L w.db call s L' w'.db ∧
      Steady dbname w' l' L' (n + call.numbers) := by
  obtain ⟨s, db', fs', l', L', hrun, hturns, hsteady⟩ := h.exists_done hn hrep hsmall hp
  exact ⟨s, ⟨fs', db'⟩, l', L', .step hreach hP (.done hp hrun), hturns, hsteady⟩

/-- So with a call that writes nothing. -/
theorem Steady.exists_other {n : ℕ} {p : FileProg (Status × Option DBImpl)} {P : World → Call → Prop}
    {made : List (Call × Option Status)} (call : Call) (h : Steady dbname w l L n)
    (hreach : Reach dbname P w made) (hP : P w call) (hn : n + 2 < 2 ^ 64)
    (hcall : ∀ op, call ≠ .perform op) (hp : call.program dbname w.db = some p) :
    ∃ s w' l' L', Reach dbname P w' (made ++ [(call, some s)]) ∧ Turns L w.db call s L' w'.db ∧
      Steady dbname w' l' L' (n + call.numbers) := by
  have hrep : Representable w call := by
    cases call with
    | perform op => exact absurd rfl (hcall op)
    | openDB => trivial
    | flush => trivial
    | close => trivial
  exact h.exists_step hreach hP hn hrep (h.small.with hcall) hp

end

/-- An empty directory is opened. -/
theorem exists_opened {dbname : Bytes} {fs : FileSystem} {P : World → Call → Prop} (hdir : Dir dbname fs [])
    (hP : P ⟨fs, none⟩ .openDB) :
    ∃ fs' db l, Reach dbname P ⟨fs', some db⟩ [(.openDB, some Status.OK)] ∧
      Steady dbname ⟨fs', some db⟩ l Layers.empty 2 ∧ db.last_seq = 0 := by
  have hstart := steady_start hdir
  obtain ⟨s, ⟨fs', db'⟩, l', L', hreach, hturns, hsteady⟩ :=
    hstart.exists_other .openDB (.start hdir) hP (by decide) (fun _ h => by cases h) rfl
  cases hturns with
  | @opened db' _ hseq => exact ⟨fs', db', l', hreach, hsteady, hseq⟩

/-- A crash may come between two calls. -/
theorem Steady.crashed {dbname : Bytes} {fs : FileSystem} {open? : Option DBImpl} {l : List FileEntry}
    {L : Layers} {n : ℕ} (h : Steady dbname ⟨fs, open?⟩ l L n) : Steady dbname ⟨fs, none⟩ l L n where
  holds := ⟨⟨rests_closed h.holds.sound.rests.1, h.holds.sound.tidy⟩, h.holds.stores, h.holds.wellFormed,
    fun _ hdb => by cases hdb⟩
  numbered := ⟨h.numbered.files, fun _ hdb => by cases hdb⟩
  compact := h.compact
  small := h.small

/-! ### A run with a flush and with a write that is cut off -/

/-- A deletion, alone in its layer. -/
def loneCalls : List (ℕ × WriteOp) := [(1, .delete [1])]

/-- The layers with the deletion in a table. -/
def loneLayers : Layers := ⟨[loneCalls], []⟩

/-- The layers with another deletion of the key in the log. -/
def twoLayers : Layers := ⟨[loneCalls], [(2, .delete [1])]⟩

theorem footprint_loneCalls :
    ∀ calls ∈ [loneCalls], ((memOf calls).table.map Entry.footprint).sum < 2 ^ 20 := by decide

/-- Whatever entries small tables are read as, their index blocks are small. -/
theorem Dir.index_lt {dbname : Bytes} {fs : FileSystem} {l : List FileEntry} (h : Dir dbname fs l)
    (tables : List (List (ℕ × WriteOp))) (htables : tableContents l = tables.map tableFor)
    (hsmall : ∀ calls ∈ tables, ((memOf calls).table.map Entry.footprint).sum < 2 ^ 20) :
    ∀ l', Dir dbname fs l' → ∀ es, tableBytes es ∈ tableContents l' →
      (indexContents (dataBlocks es)).length < 2 ^ 32 := by
  intro l' hdir' es hes
  obtain rfl := h.unique hdir'
  rw [htables] at hes
  obtain ⟨calls, hcalls, heq⟩ := List.mem_map.mp hes
  have hfoot := hsmall calls hcalls
  have hbytes := tableBytes_length_le (memOf calls).table
  rw [show tableBytes (memOf calls).table = tableBytes es from heq, tableBytes_length] at hbytes
  omega

theorem Holds.index_lt {dbname : Bytes} {w : World} {l : List FileEntry} {L : Layers} (h : Holds dbname w l L)
    (hsmall : ∀ calls ∈ L.tables, ((memOf calls).table.map Entry.footprint).sum < 2 ^ 20) :
    ∀ l', Dir dbname w.fs l' → ∀ es, tableBytes es ∈ tableContents l' →
      (indexContents (dataBlocks es)).length < 2 ^ 32 :=
  h.sound.rests.1.index_lt L.tables h.stores.tables hsmall

/-- The calls of the run up to the flush. -/
def flushedCalls : List (Call × Option Status) :=
  [(.openDB, some Status.OK), (.perform (.delete [1]), some Status.OK), (.flush, some Status.OK)]

/-- The calls of the run up to the crash. -/
def cutOffCalls : List (Call × Option Status) := flushedCalls ++ [(.perform (.delete [1]), none)]

/-- A run that deletes one key again and again, each time into an empty memtable, and opens a database only
where the log goes on or there are no tables, makes calls with `P`. -/
def Admits (dbname : Bytes) (P : World → Call → Prop) : Prop :=
  ∀ {w : World} {l : List FileEntry} {L : Layers} {n : ℕ} {call : Call}, Steady dbname w l L n → n ≤ 2 ^ 8 →
    (∀ db, w.db = some db → db.last_seq ≤ 2 ^ 8) →
    (∀ op, call = .perform op → op = .delete [1] ∧ L.current = []) →
    (call = .openDB → L.current = [] → L.tables = []) → P w call

/-- The calls of such a run. -/
theorem of_deletes {Q : Call → Prop} {call : Call} {L : Layers}
    (h : ∀ op, call = .perform op → op = .delete [1] ∧ L.current = []) (hdelete : Q (.perform (.delete [1])))
    (hopen : Q .openDB) (hflush : Q .flush) (hclose : Q .close) : Q call := by
  cases call with
  | perform op =>
      obtain ⟨rfl, -⟩ := h op rfl
      exact hdelete
  | openDB => exact hopen
  | flush => exact hflush
  | close => exact hclose

/-- A deletion into an empty memtable does not fill it. -/
theorem usage_deletion {L : Layers} (hcurrent : L.current = []) (seq : ℕ) :
    (memOf (L.write seq (.delete [1])).current).approximateMemoryUsage < 2 ^ 10 := by
  have hlayer : (L.write seq (.delete [1])).current = [] ++ [(seq, .delete [1])] := congrArg (· ++ [_]) hcurrent
  have hempty : (memOf []).approximateMemoryUsage < 2 ^ 9 := by decide
  have hfoot := callEntry_footprint (seq, .delete [1])
  simp only [WriteOp.key, WriteOp.value, List.length_cons, List.length_nil] at hfoot
  rw [hlayer, memoryUsage_concat]
  omega

section

variable {dbname : Bytes} {fs : FileSystem} {db : DBImpl} {l : List FileEntry} {L : Layers} {n : ℕ}
  {P : World → Call → Prop}

/-- A deletion into an empty memtable. -/
theorem Steady.exists_deletion (h : Steady dbname ⟨fs, some db⟩ l L n) (hn : n ≤ 2 ^ 8)
    (hseq : db.last_seq ≤ 2 ^ 8) (hcurrent : L.current = []) :
    ∃ db' fs' l', (db.perform (.delete [1])).run (disk offsetLimit) fs = .done (Status.OK, db') fs' ∧
      Steady dbname ⟨fs', some db'⟩ l' (L.write (db.last_seq + 1) (.delete [1])) (n + 2) ∧
      db'.last_seq = db.last_seq + 1 := by
  have husage := usage_deletion hcurrent (db.last_seq + 1)
  have hsmall : SmallWith L (some db) (.perform (.delete [1])) := by
    refine ⟨h.small, ?_⟩
    rintro _ _ ⟨⟩ ⟨⟩ calls hcalls
    rcases Layers.mem_newestFirst.mp hcalls with rfl | hcalls
    · exact husage.trans (by decide)
    · exact h.small calls (Layers.mem_newestFirst.mpr (Or.inr hcalls))
  have hrep : Representable ⟨fs, some db⟩ (.perform (.delete [1])) := by
    refine ⟨⟨by decide, by decide⟩, ?_⟩
    rintro _ ⟨⟩
    omega
  obtain ⟨s, open', fs', l', L', hrun, hturns, hsteady⟩ := h.exists_done (by omega) hrep hsmall rfl
  cases hturns with
  | @written _ db' _ hlast _ =>
      obtain ⟨r, fs₁, hperform, hret⟩ := Prog.run_bind_eq_done _ hrun
      obtain ⟨hs, rfl⟩ := Outcome.done.inj hret
      obtain ⟨s', db₁⟩ := r
      obtain ⟨rfl, hdb⟩ := Prod.mk.inj hs
      obtain rfl := Option.some.inj hdb
      exact ⟨db₁, fs₁, l', hperform, hsteady, hlast⟩
  | filled _ _ hfull => exact absurd (hfull.trans_lt husage) (by decide)

/-- The run up to the flush. -/
theorem exists_flushed (hdir : Dir dbname fs []) (hP : Admits dbname P) :
    ∃ fs' db l, Reach dbname P ⟨fs', some db⟩ flushedCalls ∧ Steady dbname ⟨fs', some db⟩ l loneLayers 6 ∧
      db.last_seq = 1 := by
  obtain ⟨fs₀, db₀, l₀, hreach₀, hsteady₀, hseq₀⟩ := exists_opened hdir
    (hP (steady_start hdir) (by decide) (fun _ hdb => by cases hdb) (fun _ h => by cases h) fun _ _ => rfl)
  obtain ⟨db₁, fs₁, l₁, hrun₁, hsteady₁, hseq₁⟩ :=
    hsteady₀.exists_deletion (by decide) (by rw [hseq₀]; decide) rfl
  have hreach₁ : Reach dbname P ⟨fs₁, some db₁⟩ _ :=
    hreach₀.step
      (hP hsteady₀ (by decide) (by rintro _ ⟨⟩; rw [hseq₀]; decide)
        (fun _ h => ⟨(Call.perform.inj h).symm, rfl⟩) fun h => by cases h)
      (.done rfl (Prog.run_bind_done _ hrun₁))
  obtain ⟨s, ⟨fs₂, open₂⟩, l₂, L₂, hreach₂, hturns₂, hsteady₂⟩ :=
    hsteady₁.exists_other .flush hreach₁
      (hP hsteady₁ (by decide) (by rintro _ ⟨⟩; rw [hseq₁, hseq₀]; decide) (fun _ h => by cases h)
        fun h => by cases h)
      (by decide) (fun _ h => by cases h) rfl
  have hlayers : (Layers.empty.write (db₀.last_seq + 1) (.delete [1])).flushed = loneLayers := by
    rw [hseq₀]
    rfl
  cases hturns₂ with
  | @flushed _ db₂ _ hlast _ =>
      rw [hlayers] at hsteady₂
      exact ⟨fs₂, db₂, l₂, hreach₂, hsteady₂, by rw [hlast, hseq₁, hseq₀]⟩
  | unchanged hnil => cases hnil

/-- The run up to the crash: the deletion that is cut off is in the log. -/
theorem exists_cutOff (hdir : Dir dbname fs []) (hP : Admits dbname P) :
    ∃ fs' l, Reach dbname P ⟨fs', none⟩ cutOffCalls ∧ Steady dbname ⟨fs', none⟩ l twoLayers 8 := by
  obtain ⟨fs₁, db, l₁, hreach, hsteady, hseq⟩ := exists_flushed hdir hP
  obtain ⟨db₂, fs₂, l₂, hrun, hsteady₂, -⟩ :=
    hsteady.exists_deletion (by decide) (by rw [hseq]; decide) rfl
  have hcall : P ⟨fs₁, some db⟩ (.perform (.delete [1])) :=
    hP hsteady (by decide) (by rintro _ ⟨⟩; rw [hseq]; decide)
      (fun _ h => ⟨(Call.perform.inj h).symm, rfl⟩) fun h => by cases h
  refine ⟨fs₂, l₂, hreach.step hcall (.crash rfl (Prog.crash_of_bind_run _ hrun (.now _ fs₂))), ?_⟩
  rw [hseq] at hsteady₂
  exact hsteady₂.crashed

/-- The run is at its end opened again. -/
theorem exists_resumed (hdir : Dir dbname fs []) (hP : Admits dbname P) :
    ∃ fs' db l, Reach dbname P ⟨fs', some db⟩ (cutOffCalls ++ [(.openDB, some Status.OK)]) ∧
      Steady dbname ⟨fs', some db⟩ l twoLayers 8 ∧ db.last_seq = 2 := by
  obtain ⟨fs₁, l₁, hreach, hsteady⟩ := exists_cutOff hdir hP
  obtain ⟨s, ⟨fs₂, open₂⟩, l₂, L₂, hreach₂, hturns, hsteady₂⟩ :=
    hsteady.exists_other .openDB hreach
      (hP hsteady (by decide) (fun _ hdb => by cases hdb) (fun _ h => by cases h) fun _ h => by cases h)
      (by decide) (fun _ h => by cases h) rfl
  cases hturns with
  | @opened db' _ hlast => exact ⟨fs₂, db', l₂, hreach₂, hsteady₂, hlast⟩

end

end MiniLevelDB
