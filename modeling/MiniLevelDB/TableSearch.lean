import Mathlib.Data.List.GetD
import MiniLevelDB.Table

/-! # Lookups in a table

Entries of a table lie in the order of their internal keys, but `Seek` compares whole stored keys
with the bare user key.  An entry whose user key is a proper prefix of `k` may therefore stand in
the way of the search for `k`.  `Reachable bs k` says that none does, in the index block and in the
block of the first entry of `k`.

`Serves t bs intact` describes a table over the data blocks `bs` of which those with `intact` can be
read; `Serves.get_eq` is what `Get` answers then.  `get_ne_not_found_iff` is the answer to whether
a memtable's key survives the move into a table. -/

namespace MiniLevelDB

open Effect Posix

/-! ### Lookup in one block -/

/-- The entries have internal keys, in their order. -/
structure Ordered (es : List Entry) : Prop where
  sorted : es.Pairwise Entry.Le
  length_ge : ∀ e ∈ es, 8 ≤ e.1.length

theorem MemTable.ordered (m : MemTable) : Ordered m.table := by
  refine ⟨m.sorted, fun e he => ?_⟩
  obtain ⟨key, seq, type, h⟩ := m.keys e he
  rw [h, internalKey_length]
  omega

/-- A stored key is not below the user keys up to its own. -/
theorem Entry.not_lt {e : Entry} (h : 8 ≤ e.1.length) {k : Bytes} (hk : k ≤ e.userKey) :
    ¬ e.1 < k := by
  rw [(internal_key_eq h).1]
  rcases hk.eq_or_lt with rfl | hlt
  · exact ListOrder.not_append_lt _ _
  · exact ListOrder.not_append_lt_of_lt hlt _

/-- From an entry of `k` on, nothing is below `k`. -/
theorem Ordered.not_below {es : List Entry} (h : Ordered es) {k : Bytes} {j : ℕ} (hj : j < es.length)
    (hk : es[j].userKey = k) (p : ℕ) (hp : j ≤ p) (hlt : p < es.length) :
    ¬ Block.keyBelow es k p = true := by
  have hle : k ≤ es[p].userKey := by
    rcases hp.eq_or_lt with rfl | hjp
    · exact hk.ge
    · rcases (Entry.le_iff _ _).mp (List.pairwise_iff_getElem.mp h.sorted j p hj hlt hjp) with h' | h'
      · exact hk ▸ h'.le
      · exact hk ▸ h'.1.le
  rw [Block.keyBelow, List.getElem?_eq_getElem hlt, decide_eq_true_iff]
  exact Entry.not_lt (h.length_ge _ (List.getElem_mem hlt)) hle

/-- The position of the first entry of `k`. -/
def firstIndex (k : Bytes) (es : List Entry) : ℕ := es.findIdx fun e => e.userKey = k

/-- The answer of `Get` by the entry it stops at. -/
def answerAt (k : Bytes) : Option Entry → LookupState
  | none => .kNotFound
  | some e => if e.userKey ≠ k then .kNotFound else e.result

theorem firstFor_eq_getElem? (k : Bytes) (es : List Entry) : firstFor k es = es[firstIndex k es]? :=
  List.find?_eq_getElem?_findIdx

theorem firstIndex_lt {k : Bytes} {es : List Entry} (h : ∃ e ∈ es, e.userKey = k) :
    firstIndex k es < es.length := by
  obtain ⟨e, he, hk⟩ := h
  exact List.findIdx_lt_length_of_exists ⟨e, he, decide_eq_true hk⟩

theorem userKey_firstIndex {k : Bytes} {es : List Entry} (h : firstIndex k es < es.length) :
    es[firstIndex k es].userKey = k := of_decide_eq_true (List.findIdx_getElem (w := h))

/-- Before the first entry of `k` there is no answer. -/
theorem answerAt_of_lt {k : Bytes} {es : List Entry} {p : ℕ} (h : p < firstIndex k es) :
    answerAt k es[p]? = .kNotFound := by
  cases hp : es[p]? with
  | none => rfl
  | some e =>
      obtain ⟨hlt, rfl⟩ := List.getElem?_eq_some_iff.mp hp
      have hne : es[p].userKey ≠ k := by simpa using List.not_of_lt_findIdx h
      rw [answerAt, if_pos hne]

/-- Without an entry of `k` there is no answer. -/
theorem answerAt_of_none {k : Bytes} {es : List Entry} (h : firstFor k es = none) (p : ℕ) :
    answerAt k es[p]? = .kNotFound := by
  cases hp : es[p]? with
  | none => rfl
  | some e =>
      have hne : ¬ e.userKey = k := by
        simpa using List.find?_eq_none.mp h e (List.mem_of_getElem? hp)
      rw [answerAt, if_pos hne]

/-- Whether `Seek` in a block of `es` reaches the first entry of `k`. -/
def ReachableIn (es : List Entry) (k : Bytes) : Prop :=
  SkipSearch.Unobstructed (Block.keyBelow es k) kRestartInterval es.length (firstIndex k es)

instance (es : List Entry) (k : Bytes) : Decidable (ReachableIn es k) :=
  inferInstanceAs (Decidable (SkipSearch.Unobstructed _ _ _ _))

/-- The lookup in the data block of `es`. -/
theorem getInBlock_eq {es : List Entry} (hes : Ordered es) (hfit : (blockContents es).length < 2 ^ 32)
    (k : Bytes) :
    Table.getInBlock k (blockContents es) =
      pure (if ReachableIn es k then resultOf (firstFor k es) else .kNotFound) := by
  obtain ⟨it, hseek, hit⟩ := Block.seek_eq hfit k Block.newIterator
  obtain ⟨j, hj⟩ : ∃ j, j = SkipSearch.skipSearch (Block.keyBelow es k) kRestartInterval es.length :=
    ⟨_, rfl⟩
  have hanswer : Table.getInBlock k (blockContents es) = pure (answerAt k es[j]?) := by
    unfold Table.getInBlock
    rw [new_blockContents hfit, Block.ofExcept_ok_bind, hseek, pure_bind]
    rw [← hj] at hit
    rcases hit with hat | ⟨hge, hv⟩
    · have hlt := hat.lt
      have hlen := hes.length_ge _ (List.getElem_mem hlt)
      rw [List.getElem?_eq_getElem hat.lt]
      simp only [hat.valid, hat.key_eq, hat.value_eq, Bool.not_true, Bool.false_eq_true, if_false,
        if_neg hlen.not_gt, Block.ofExcept_ok_bind, answerAt, Entry.userKey, Entry.result]
      by_cases hkey : extractUserKey es[j].1 = k
      · by_cases htype : extractTag es[j].1 &&& 0xff = 1
        · simp [hkey, htype]
        · simp [hkey, htype]
      · simp [hkey]
    · rw [List.getElem?_eq_none hge, hv]
      rfl
  rw [hanswer]
  congr 1
  by_cases hk : ∃ e ∈ es, e.userKey = k
  · have hlt := firstIndex_lt hk
    have hafter := hes.not_below hlt (userKey_firstIndex hlt)
    have hle := SkipSearch.skipSearch_le (w := kRestartInterval) (by decide) hlt hafter
    have hiff := SkipSearch.skipSearch_eq_iff (w := kRestartInterval) (by decide) hlt hafter
    rw [← hj] at hle hiff
    by_cases hreach : ReachableIn es k
    · rw [if_pos hreach, hiff.mpr hreach, firstFor_eq_getElem?, List.getElem?_eq_getElem hlt, answerAt,
        if_neg (not_not.mpr (userKey_firstIndex hlt))]
      rfl
    · rw [if_neg hreach]
      exact answerAt_of_lt (lt_of_le_of_ne hle fun h => hreach (hiff.mp h))
  · have hnone : firstFor k es = none :=
      List.find?_eq_none.mpr fun e he => by simpa using fun h => hk ⟨e, he, h⟩
    rw [answerAt_of_none hnone, hnone]
    split <;> rfl

/-! ### Lookup in a table -/

/-- The number of the block with the first entry of `k`. -/
def firstBlock (k : Bytes) (bs : List (List Entry)) : ℕ := bs.findIdx fun b => (firstFor k b).isSome

/-- Whether the two searches of `Get` reach the first entry of `k`. -/
def Reachable (bs : List (List Entry)) (k : Bytes) : Prop :=
  SkipSearch.Unobstructed (Block.keyBelow (indexEntries 0 bs) k) kRestartInterval bs.length
      (firstBlock k bs) ∧
    ReachableIn (bs.getD (firstBlock k bs) []) k

instance (bs : List (List Entry)) (k : Bytes) : Decidable (Reachable bs k) :=
  inferInstanceAs (Decidable (_ ∧ _))

/-- The table has the data blocks `bs`; those with `intact` can be read, and for the others the
handle does not decode or `ReadBlock` returns an error. -/
structure Serves (t : Table) (bs : List (List Entry)) (intact : ℕ → Bool) : Prop where
  ne_nil : ∀ b ∈ bs, b ≠ []
  ordered : Ordered bs.flatten
  data_fit : ∀ b ∈ bs, (blockContents b).length < 2 ^ 32
  index : ∃ idx, t.index_block = blockOf idx ∧ (blockContents idx).length < 2 ^ 32 ∧
    idx.map Prod.fst = bs.map (lastKey []) ∧
    ∀ i e b, idx[i]? = some e → bs[i]? = some b →
      t.dataBlock e.2 = .ok (if intact i then some (blockContents b) else none)

theorem keyBelow_congr {es fs : List Entry} (h : es.map Prod.fst = fs.map Prod.fst) (k : Bytes) :
    Block.keyBelow es k = Block.keyBelow fs k := by
  funext i
  have hi : (es[i]?).map Prod.fst = (fs[i]?).map Prod.fst := by
    rw [← List.getElem?_map, h, List.getElem?_map]
  unfold Block.keyBelow
  cases he : es[i]? <;> cases hf : fs[i]? <;> simp_all

theorem indexEntries_keys (o : ℕ) (bs : List (List Entry)) :
    (indexEntries o bs).map Prod.fst = bs.map (lastKey []) := by
  induction bs generalizing o with
  | nil => rfl
  | cons b bs ih => rw [indexEntries, List.map_cons, ih, List.map_cons]

theorem firstFor_flatten (k : Bytes) (bs : List (List Entry)) :
    firstFor k bs.flatten = (bs[firstBlock k bs]?).bind (firstFor k) := by
  induction bs with
  | nil => rfl
  | cons b bs ih =>
      rw [firstBlock, List.findIdx_cons, List.flatten_cons, firstFor, List.find?_append,
        ← firstFor, ← firstFor, ih]
      cases h : firstFor k b with
      | none => simp [firstBlock]
      | some e => simp [h]

theorem firstFor_eq_none_of_lt {k : Bytes} {bs : List (List Entry)} {i : ℕ} (h : i < firstBlock k bs)
    {b : List Entry} (hb : bs[i]? = some b) : firstFor k b = none := by
  obtain ⟨hlt, rfl⟩ := List.getElem?_eq_some_iff.mp hb
  simpa using List.not_of_lt_findIdx h

theorem Ordered.of_mem {bs : List (List Entry)} (h : Ordered bs.flatten) {b : List Entry}
    (hb : b ∈ bs) : Ordered b :=
  ⟨(List.pairwise_flatten.mp h.sorted).1 b hb,
    fun e he => h.length_ge e (List.mem_flatten.mpr ⟨b, hb, he⟩)⟩

/-- From the block with an entry of `k` on, no last key is below `k`. -/
theorem lastKey_not_below {bs : List (List Entry)} (hne : ∀ b ∈ bs, b ≠ [])
    (hord : Ordered bs.flatten) {k : Bytes} {i : ℕ} (hi : i < bs.length)
    (hk : ∃ e ∈ bs[i], e.userKey = k) (p : ℕ) (hp : i ≤ p) (hlt : p < bs.length) :
    ¬ Block.keyBelow (indexEntries 0 bs) k p = true := by
  obtain ⟨e, he, hek⟩ := hk
  have hnep := hne _ (List.getElem_mem hlt)
  have hle : k ≤ (bs[p].getLast hnep).userKey := by
    have hle : e = bs[p].getLast hnep ∨ Entry.Le e (bs[p].getLast hnep) := by
      rcases hp.eq_or_lt with rfl | hip
      · obtain ⟨j, hj, rfl⟩ := List.getElem_of_mem he
        rw [List.getLast_eq_getElem]
        rcases Nat.lt_or_ge j (bs[i].length - 1) with hlast | hlast
        · exact Or.inr (List.pairwise_iff_getElem.mp (hord.of_mem (List.getElem_mem hi)).sorted
            _ _ hj (by omega) hlast)
        · have hjl : j = bs[i].length - 1 := by omega
          subst hjl
          exact Or.inl rfl
      · exact Or.inr (List.pairwise_iff_getElem.mp (List.pairwise_flatten.mp hord.sorted).2 i p hi hlt
          hip e he _ (List.getLast_mem hnep))
    rcases hle with h | h
    · rw [← h, hek]
    · rcases (Entry.le_iff _ _).mp h with h | h
      · exact hek ▸ h.le
      · exact hek ▸ h.1.le
  have hkey : ((indexEntries 0 bs)[p]?).map Prod.fst = some (bs[p].getLast hnep).1 := by
    rw [← List.getElem?_map, indexEntries_keys, List.getElem?_map, List.getElem?_eq_getElem hlt,
      Option.map_some, lastKey_eq_getLast hnep]
  obtain ⟨f, hf, hf1⟩ := Option.map_eq_some_iff.mp hkey
  rw [Block.keyBelow, hf]
  simp only [hf1, decide_eq_true_iff]
  exact Entry.not_lt (hord.length_ge _ (List.mem_flatten.mpr
    ⟨_, List.getElem_mem hlt, List.getLast_mem hnep⟩)) hle

theorem firstBlock_lt {k : Bytes} {bs : List (List Entry)} {e : Entry}
    (h : firstFor k bs.flatten = some e) : ∃ hlt : firstBlock k bs < bs.length,
      firstFor k bs[firstBlock k bs] = some e := by
  rw [firstFor_flatten] at h
  obtain ⟨b, hb, he⟩ := Option.bind_eq_some_iff.mp h
  obtain ⟨hlt, rfl⟩ := List.getElem?_eq_some_iff.mp hb
  exact ⟨hlt, he⟩

theorem exists_of_firstFor {k : Bytes} {es : List Entry} {e : Entry} (h : firstFor k es = some e) :
    ∃ e ∈ es, e.userKey = k :=
  ⟨e, List.mem_of_find?_eq_some h, by simpa using List.find?_some h⟩

/-- The data block of a served table, wherever the index search stops. -/
theorem Serves.get_block {t : Table} {bs : List (List Entry)} {intact : ℕ → Bool}
    (h : Serves t bs intact) (k : Bytes) :
    t.get k = match bs[SkipSearch.skipSearch (Block.keyBelow (indexEntries 0 bs) k) kRestartInterval
        bs.length]? with
      | none => pure .kNotFound
      | some b =>
          if intact (SkipSearch.skipSearch (Block.keyBelow (indexEntries 0 bs) k) kRestartInterval
              bs.length) then Table.getInBlock k (blockContents b)
          else pure .kNotFound := by
  obtain ⟨idx, hidx, hfit, hkeys, hdata⟩ := h.index
  have hlen : idx.length = bs.length := by
    rw [← List.length_map (f := Prod.fst), hkeys, List.length_map]
  obtain ⟨it, hseek, hit⟩ := Block.seek_eq hfit k Block.newIterator
  rw [keyBelow_congr (hkeys.trans (indexEntries_keys 0 bs).symm) k, hlen] at hit
  generalize SkipSearch.skipSearch (Block.keyBelow (indexEntries 0 bs) k) kRestartInterval
    bs.length = p at hit ⊢
  unfold Table.get
  rw [hidx, hseek, pure_bind]
  rcases hit with hat | ⟨hge, hv⟩
  · have hp : p < bs.length := hlen ▸ hat.lt
    rw [List.getElem?_eq_getElem hp]
    have hblock := hdata p _ _ (List.getElem?_eq_getElem hat.lt) (List.getElem?_eq_getElem hp)
    simp only [hat.valid, hat.value_eq, Block.ofExcept_ok_bind, hblock]
    by_cases hi : intact p = true
    · simp [hi]
    · simp [hi]
  · rw [List.getElem?_eq_none (hlen ▸ hge), hv]
    rfl

/-- **What `Get` answers**: the first entry of `k`, if the searches reach it and its block can be
read, and otherwise that there is none. -/
theorem Serves.get_eq {t : Table} {bs : List (List Entry)} {intact : ℕ → Bool} (h : Serves t bs intact)
    (k : Bytes) :
    t.get k = pure (if Reachable bs k ∧ intact (firstBlock k bs) = true
      then resultOf (firstFor k bs.flatten) else .kNotFound) := by
  -- a block without an entry of `k` answers that there is none
  have hother : ∀ b ∈ bs, firstFor k b = none →
      Table.getInBlock k (blockContents b) = pure .kNotFound := by
    intro b hb hnone
    rw [getInBlock_eq (h.ordered.of_mem hb) (h.data_fit b hb), hnone]
    congr 1
    split <;> rfl
  rw [h.get_block k]
  generalize hp : SkipSearch.skipSearch (Block.keyBelow (indexEntries 0 bs) k) kRestartInterval
    bs.length = p
  cases hfirst : firstFor k bs.flatten with
  | none =>
      have hnone : (match bs[p]? with
          | none => pure .kNotFound
          | some b => if intact p then Table.getInBlock k (blockContents b) else pure .kNotFound) =
          (pure .kNotFound : Exec LookupState) := by
        cases hb : bs[p]? with
        | none => rfl
        | some b =>
            have hmem := List.mem_of_getElem? hb
            have hno : firstFor k b = none := List.find?_eq_none.mpr fun e he =>
              List.find?_eq_none.mp hfirst e (List.mem_flatten.mpr ⟨b, hmem, he⟩)
            simp only [hother b hmem hno, ite_self]
      rw [hnone]
      congr 1
      split <;> rfl
  | some e =>
      obtain ⟨hlt, hin⟩ := firstBlock_lt hfirst
      have hafter := lastKey_not_below h.ne_nil h.ordered hlt (exists_of_firstFor hin)
      have hle := SkipSearch.skipSearch_le (w := kRestartInterval) (by decide) hlt hafter
      have hiff := SkipSearch.skipSearch_eq_iff (w := kRestartInterval) (by decide) hlt hafter
      rw [hp] at hle hiff
      rcases hle.lt_or_eq with hbefore | rfl
      · -- the search stops in an earlier block
        have hb := List.getElem?_eq_getElem (hbefore.trans hlt)
        have hno := firstFor_eq_none_of_lt hbefore hb
        rw [if_neg fun hr => hbefore.ne (hiff.mpr hr.1.1), hb]
        simp only [hother _ (List.mem_of_getElem? hb) hno, ite_self]
      · have hb := List.getElem?_eq_getElem hlt
        have hget := getInBlock_eq (h.ordered.of_mem (List.getElem_mem hlt))
          (h.data_fit _ (List.getElem_mem hlt)) k
        have hreach : Reachable bs k ↔ ReachableIn bs[firstBlock k bs] k := by
          rw [Reachable, List.getD_eq_getElem _ _ hlt]
          exact and_iff_right (hiff.mp rfl)
        rw [hb]
        simp only [hget, hin, hreach]
        by_cases hi : intact (firstBlock k bs) = true
        · simp [hi]
        · simp [hi]

/-! ### Tables as they are written -/

theorem indexEntries_getElem? (o : ℕ) {bs : List (List Entry)} {i : ℕ} {b : List Entry}
    (hb : bs[i]? = some b) :
    (indexEntries o bs)[i]? = some (lastKey [] b,
      (BlockHandle.mk (o + (dataBytes (bs.take i)).length) (blockContents b).length).encode) := by
  induction bs generalizing o i with
  | nil => simp at hb
  | cons c bs ih =>
      cases i with
      | zero =>
          obtain rfl : c = b := by simpa using hb
          rfl
      | succ i =>
          rw [List.getElem?_cons_succ] at hb
          rw [indexEntries, List.getElem?_cons_succ, ih _ hb, List.take_succ_cons]
          simp only [dataBytes, List.flatMap_cons, List.length_append, withTrailer_length,
            Nat.add_assoc]

/-- The handle of a block is read back from its index entry. -/
theorem BlocksFit.decode_index {es : List Entry} (hfit : BlocksFit es) {i : ℕ} {e : Entry} {b : List Entry}
    (he : (indexEntries 0 (dataBlocks es))[i]? = some e) (hb : (dataBlocks es)[i]? = some b) :
    (dataBytes ((dataBlocks es).take i)).length < 2 ^ 63 - 2 ^ 33 ∧
      BlockHandle.decodeFrom e.2 =
        .ok (⟨(dataBytes ((dataBlocks es).take i)).length, (blockContents b).length⟩, []) := by
  have hlt := hfit.dataBytes_length_lt
  have hsize := hfit.1 b (List.mem_of_getElem? hb)
  have hoff : (dataBytes ((dataBlocks es).take i)).length < 2 ^ 63 - 2 ^ 33 := by
    have hsplit := congrArg (List.length ∘ dataBytes) (List.take_append_drop i (dataBlocks es))
    simp only [Function.comp_apply, dataBytes_append, List.length_append] at hsplit
    omega
  obtain ⟨handle, hhandle⟩ : ∃ handle : BlockHandle, handle =
      ⟨(dataBytes ((dataBlocks es).take i)).length, (blockContents b).length⟩ := ⟨_, rfl⟩
  have henc := (indexEntries_getElem? 0 hb).symm.trans he
  rw [Nat.zero_add, ← hhandle] at henc
  have hdecode := BlockHandle.decodeFrom_encode (h := handle) (by
    rw [hhandle]
    exact ⟨by simp only; omega, by simp only; omega⟩) []
  rw [← Option.some.inj henc, ← hhandle]
  rw [List.append_nil] at hdecode
  exact ⟨hoff, hdecode⟩

/-- A written table serves all its blocks. -/
theorem serves_tableOf {es : List Entry} (hfit : BlocksFit es) (hord : Ordered es) :
    Serves (tableOf es) (dataBlocks es) fun _ => true := by
  refine ⟨fun b hb => ne_nil_of_mem_cutBlocks hb, (dataBlocks_flatten es).symm ▸ hord, hfit.1,
    indexEntries 0 (dataBlocks es), rfl, hfit.2, indexEntries_keys 0 _, ?_⟩
  intro i e b he hb
  obtain ⟨hi, hbi⟩ := List.getElem?_eq_some_iff.mp hb
  obtain ⟨hoff, hdecode⟩ := hfit.decode_index he hb
  have hsize := hfit.1 b (List.mem_of_getElem? hb)
  have hsplit : dataBytes (dataBlocks es) = dataBytes ((dataBlocks es).take i) ++
      (withTrailer (blockContents b) ++ dataBytes ((dataBlocks es).drop (i + 1))) := by
    conv_lhs => rw [← List.take_append_drop i (dataBlocks es), List.drop_eq_getElem_cons hi, hbi]
    rw [dataBytes_append]
    rfl
  have hread : readBlock (tableOf es).file
      ⟨(dataBytes ((dataBlocks es).take i)).length, (blockContents b).length⟩ =
        .ok (.ok (blockContents b)) := by
    rw [tableOf, tableBytes, hsplit, List.append_assoc, List.append_assoc]
    exact readBlock_withTrailer (by omega) (add_trailer_le hsize)
  rw [Table.dataBlock, hdecode]
  simp only [hread, if_true]

/-! ### What survives the move into a table -/

/-- **When a key of a memtable is found in its table.**  The file is written from the memtable's
iteration and opened; `Get` of a key the memtable holds does not report that there is none exactly
when the search reaches it. -/
theorem get_ne_not_found_iff (file : FILE) (fs : FileSystem) (calls : List AddCall) (k : Bytes)
    (hfit : BlocksFit (MemTable.empty.addAll calls).table) (hk : ∃ c ∈ calls, c.key = k) :
    ∃ b t fs₁ fs₂ r,
      ((TableBuilder.new file).buildFrom (MemTable.empty.addAll calls).table).run (disk unbounded)
          (fs.insert file []) = .done (Status.OK, b) fs₁ ∧
        (Table.openTable file).run (disk unbounded) fs₁ = .done (.ok t) fs₂ ∧
        t.get k = pure r ∧
        (r ≠ .kNotFound ↔ Reachable (dataBlocks (MemTable.empty.addAll calls).table) k) := by
  obtain ⟨b, hrun, -, hopen⟩ := run_build_open file fs hfit
  have hserves := serves_tableOf hfit (MemTable.empty.addAll calls).ordered
  refine ⟨b, _, _, _, _, hrun, hopen, hserves.get_eq k, ?_⟩
  obtain ⟨c, hc, rfl⟩ := hk
  obtain ⟨e, he⟩ : ∃ e, firstFor c.key (MemTable.empty.addAll calls).table = some e := by
    refine Option.isSome_iff_exists.mp (List.find?_isSome.mpr ⟨c.entry, ?_, ?_⟩)
    · exact MemTable.mem_addAll.mpr (Or.inr ⟨c, hc, rfl⟩)
    · simp
  rw [dataBlocks_flatten, he]
  by_cases hr : Reachable (dataBlocks (MemTable.empty.addAll calls).table) c.key
  · simp only [hr, and_self, if_true, resultOf, Entry.result, iff_true]
    split <;> simp
  · simp [hr]

/-- Entries that cost less than the block size do not fill a block. -/
theorem sizeEstimate_lt_of_cost {es : List Entry} (h : (es.map entryCost).sum + 4 < TableBuilder.kBlockSize) :
    sizeEstimate es < TableBuilder.kBlockSize := by
  have h1 := encodeEntries_length_le 0 [] es
  have h2 : restartCount es.length ≤ es.length := by
    unfold restartCount kRestartInterval
    omega
  unfold sizeEstimate BlockBuilder.currentSizeEstimate
  rw [BlockBuilder.addAll_eq, List.length_map, restartsOf_length]
  simp only
  omega

/-- Entries below the block size stay in one block. -/
theorem dataBlocks_of_small {es : List Entry} (hne : es ≠ [])
    (h : (es.map entryCost).sum + 4 < TableBuilder.kBlockSize) : dataBlocks es = [es] := by
  have hsmall : ∀ cur fs, cur ++ fs = es → cutBlocks cur fs = [es] := by
    intro cur fs
    induction fs generalizing cur with
    | nil =>
        intro hes
        rw [List.append_nil] at hes
        rw [cutBlocks, hes, if_neg hne]
    | cons e fs ih =>
        intro hes
        have hcost : ((cur ++ [e]).map entryCost).sum ≤ (es.map entryCost).sum := by
          rw [← hes]
          simp only [List.map_append, List.map_cons, List.map_nil, List.sum_append, List.sum_cons,
            List.sum_nil]
          omega
        have hest := sizeEstimate_lt_of_cost ((Nat.add_le_add_right hcost 4).trans_lt h)
        rw [cutBlocks, if_neg hest.not_ge]
        exact ih _ (by rw [← List.append_cons, hes])
  exact hsmall [] es rfl

/-- Two keys, the first a prefix of the second. -/
def prefixCalls : List AddCall :=
  [⟨1, .kTypeValue, [97], [120]⟩, ⟨2, .kTypeValue, [97, 0], [121]⟩]

theorem prefixCalls_blocks :
    dataBlocks (MemTable.empty.addAll prefixCalls).table =
      [(MemTable.empty.addAll prefixCalls).table] := dataBlocks_of_small (by decide) (by decide)

/-- The shorter key is found. -/
theorem get_ne_not_found_prefix :
    ∃ b t fs₁ fs₂ r,
      ((TableBuilder.new (ascii "db/1.ldb")).buildFrom (MemTable.empty.addAll prefixCalls).table).run
          (disk unbounded) (AList.insert (ascii "db/1.ldb") [] ∅) = .done (Status.OK, b) fs₁ ∧
        (Table.openTable (ascii "db/1.ldb")).run (disk unbounded) fs₁ = .done (.ok t) fs₂ ∧
        t.get [97] = pure r ∧
        (r ≠ .kNotFound ↔ Reachable (dataBlocks (MemTable.empty.addAll prefixCalls).table) [97]) :=
  get_ne_not_found_iff (ascii "db/1.ldb") ∅ prefixCalls [97] (blocksFit_of_footprint (by decide))
    ⟨_, List.mem_cons_self, rfl⟩

/-- **A key is lost in the table**: behind the key `a` with sequence number 1, the search for `a\0`
stops at `a`. -/
theorem prefix_key_lost :
    ¬ ∀ (file : FILE) (fs fs₁ fs₂ : FileSystem) (calls : List AddCall) (k : Bytes) b t r,
      (calls.map fun c => c.entry.1).Nodup → (∃ c ∈ calls, c.key = k) →
      ((TableBuilder.new file).buildFrom (MemTable.empty.addAll calls).table).run (disk unbounded)
          (fs.insert file []) = .done (Status.OK, b) fs₁ →
      (Table.openTable file).run (disk unbounded) fs₁ = .done (.ok t) fs₂ →
      t.get k = pure r → r ≠ .kNotFound := by
  intro hclaim
  have hfit : BlocksFit (MemTable.empty.addAll prefixCalls).table :=
    blocksFit_of_footprint (by decide)
  obtain ⟨b, hrun, -, hopen⟩ := run_build_open [] ∅ hfit
  have hget := (serves_tableOf hfit (MemTable.empty.addAll prefixCalls).ordered).get_eq [97, 0]
  have hunreachable : ¬ Reachable (dataBlocks (MemTable.empty.addAll prefixCalls).table) [97, 0] := by
    rw [prefixCalls_blocks]
    intro h
    exact absurd (h.2.2 0 (by decide) (by decide)) (by decide)
  rw [if_neg fun h => hunreachable h.1] at hget
  exact hclaim [] ∅ _ _ prefixCalls [97, 0] b _ _ (by decide) (by decide) hrun hopen hget rfl

/-- **`Get` never answers from an older version or another key.**  Of entries in strictly increasing
internal order, whenever it answers a value this is the value of the entry of `k` with the greatest
tag, and whenever it answers a deletion that entry is one. -/
theorem get_answers_newest (file : FILE) (fs : FileSystem) (es : List Entry) (k : Bytes)
    (hsorted : es.Pairwise fun a b => internalKeyLess a.1 b.1 = true)
    (hlen : ∀ e ∈ es, 8 ≤ e.1.length) (hfit : BlocksFit es) :
    ∃ b t fs₁ fs₂ r,
      ((TableBuilder.new file).buildFrom es).run (disk unbounded) (fs.insert file []) =
          .done (Status.OK, b) fs₁ ∧
        (Table.openTable file).run (disk unbounded) fs₁ = .done (.ok t) fs₂ ∧
        t.get k = pure r ∧
        (∀ v, r = .kValue v → ∃ e ∈ es, e.userKey = k ∧
          (∀ e' ∈ es, e'.userKey = k → extractTag e'.1 ≤ extractTag e.1) ∧
          extractTag e.1 &&& 0xff = 1 ∧ e.2 = v) ∧
        (r = .kDeleted → ∃ e ∈ es, e.userKey = k ∧
          (∀ e' ∈ es, e'.userKey = k → extractTag e'.1 ≤ extractTag e.1) ∧
          extractTag e.1 &&& 0xff ≠ 1) := by
  have hord : Ordered es := by
    refine ⟨hsorted.imp fun {a b} h => (Entry.le_iff a b).mpr ?_, hlen⟩
    rcases (internalKeyLess_iff _ _).mp h with h | h
    · exact Or.inl h
    · exact Or.inr ⟨h.1, h.2.le⟩
  obtain ⟨b, hrun, -, hopen⟩ := run_build_open file fs hfit
  refine ⟨b, _, _, _, _, hrun, hopen, (serves_tableOf hfit hord).get_eq k, ?_⟩
  rw [dataBlocks_flatten]
  cases hfirst : firstFor k es with
  | none => simp [resultOf]
  | some e =>
      have hmem := List.mem_of_find?_eq_some hfirst
      have hkey : e.userKey = k := by simpa using List.find?_some hfirst
      have hmax : ∀ e' ∈ es, e'.userKey = k → extractTag e'.1 ≤ extractTag e.1 := by
        intro e' he' hk'
        exact tag_le_of_firstFor hord.sorted hfirst he' hk'
      split
      · simp only [resultOf, Entry.result]
        refine ⟨fun v hv => ⟨e, hmem, hkey, hmax, ?_⟩, fun hd => ⟨e, hmem, hkey, hmax, ?_⟩⟩
        · split at hv
          · rename_i h
            exact ⟨h, LookupState.kValue.inj hv⟩
          · cases hv
        · split at hd
          · cases hd
          · rename_i h
            exact h
      · exact ⟨fun v hv => (by cases hv), fun hd => (by cases hd)⟩

/-- The two entries of `prefixCalls` in their order. -/
theorem get_answers_newest_prefix :
    ∃ b t fs₁ fs₂ r,
      ((TableBuilder.new (ascii "db/1.ldb")).buildFrom (MemTable.empty.addAll prefixCalls).table).run
          (disk unbounded) (AList.insert (ascii "db/1.ldb") [] ∅) = .done (Status.OK, b) fs₁ ∧
        (Table.openTable (ascii "db/1.ldb")).run (disk unbounded) fs₁ = .done (.ok t) fs₂ ∧
        t.get [97] = pure r := by
  obtain ⟨b, t, fs₁, fs₂, r, hrun, hopen, hget, -⟩ :=
    get_answers_newest (ascii "db/1.ldb") ∅ (MemTable.empty.addAll prefixCalls).table [97] (by decide)
      (by decide) (blocksFit_of_footprint (by decide))
  exact ⟨b, t, fs₁, fs₂, r, hrun, hopen, hget⟩

end MiniLevelDB
