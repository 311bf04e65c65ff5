import MiniLevelDB.Block
import MiniLevelDB.Lib.SkipSearch

/-! # Reading the layout back

For the contents a builder writes, below `2 ^ 32` bytes, the constructor finds the restart points
(`new_blockContents`) and each decoded entry is the entry that was added (`decodeEntry_at`).  Then
`Seek` is the search of `SkipSearch` over the stored keys, whatever their order
(`seek_eq`), and `SeekToFirst` followed by `Next` walks over the entries (`walk_eq`). -/

namespace MiniLevelDB

/-- Iteration over a block: what is seen from the iterator's position on. -/
def Block.collect (b : Block) (it : Block.Iterator) : Exec (List Entry) :=
  if it.valid then do
    let value ← Exec.ofExcept (b.value it)
    let key := it.key
    let it ← Exec.ofExcept (b.next it)
    let rest ← b |>.collect it
    return (key, value) :: rest
  else return []
partial_fixpoint

/-- The entries of a block: `SeekToFirst`, then `Next` while the iterator is valid. -/
def Block.walk (b : Block) : Exec (List Entry) := do
  let it ← Exec.ofExcept (b.seekToFirst Block.newIterator)
  b.collect it

/-! ### The constructor -/

/-- The block of `es`. -/
def blockOf (es : List Entry) : Block :=
  ⟨blockContents es, (encodeEntries 0 [] es).length, restartsOf es⟩

theorem mapM_ok {α β ε : Type} {f : α → Except ε β} {g : α → β} {l : List α}
    (h : ∀ a ∈ l, f a = .ok (g a)) : l.mapM f = .ok (l.map g) := by
  induction l with
  | nil => rfl
  | cons a l ih =>
      rw [List.mapM_cons, h a (by simp), ih fun a ha => h a (List.mem_cons_of_mem _ ha)]
      rfl

theorem flatMap_encodeFixed32_length (l : List ℕ) : (l.flatMap encodeFixed32).length = l.length * 4 := by
  induction l with
  | nil => rfl
  | cons a l ih =>
      rw [List.flatMap_cons, List.length_append, ih, encodeFixed32_length, List.length_cons]
      omega

theorem drop_flatMap_encodeFixed32 {l : List ℕ} {i : ℕ} (h : i < l.length) :
    (l.flatMap encodeFixed32).drop (i * 4) =
      encodeFixed32 l[i] ++ (l.drop (i + 1)).flatMap encodeFixed32 := by
  have hsplit : l.flatMap encodeFixed32 = (l.take i).flatMap encodeFixed32 ++
      (encodeFixed32 l[i] ++ (l.drop (i + 1)).flatMap encodeFixed32) := by
    rw [← List.flatMap_cons, ← List.flatMap_append, ← List.drop_eq_getElem_cons h,
      List.take_append_drop]
  have hlen : ((l.take i).flatMap encodeFixed32).length = i * 4 := by
    rw [flatMap_encodeFixed32_length, List.length_take_of_le h.le]
  rw [hsplit, List.drop_left' hlen]

@[simp] theorem restartsOf_length (es : List Entry) :
    (restartsOf es).length = restartCount es.length := by
  simp [restartsOf]

theorem blockContents_length (es : List Entry) :
    (blockContents es).length = (encodeEntries 0 [] es).length + restartCount es.length * 4 + 4 := by
  simp only [blockContents, List.length_append, flatMap_encodeFixed32_length, restartsOf_length,
    encodeFixed32_length]

/-- The block the constructor makes of what the builder wrote: restart offsets are read as 32 bits. -/
def openedBlock (es : List Entry) : Block :=
  ⟨blockContents es, (encodeEntries 0 [] es).length, (restartsOf es).map (· % 2 ^ 32)⟩

/-- The count behind the restart points. -/
theorem decodeFixed32_restartCount {es : List Entry} (h : restartCount es.length < 2 ^ 32) :
    decodeFixed32 ((blockContents es).drop ((blockContents es).length - 4)) = restartCount es.length := by
  have hlen := blockContents_length es
  have hdrop : (blockContents es).drop ((blockContents es).length - 4) =
      encodeFixed32 (restartCount es.length) ++ [] := by
    have hlast : (encodeEntries 0 [] es ++ (restartsOf es).flatMap encodeFixed32).length =
        (blockContents es).length - 4 := by
      rw [hlen, List.length_append, flatMap_encodeFixed32_length, restartsOf_length]
      rfl
    rw [List.append_nil]
    exact List.drop_left' hlast
  rw [hdrop, decodeFixed32_encodeFixed32 h]

/-- The constructor on what the builder wrote, if the size of the restart array is a number of 32
bits. -/
theorem new_blockContents_of_count {es : List Entry} (h : restartCount es.length < 2 ^ 30) :
    Block.new (blockContents es) = .ok (openedBlock es) := by
  have hlen := blockContents_length es
  have hcount := @decodeFixed32_restartCount es (by omega)
  have hsize : restartCount es.length * 4 % 2 ^ 32 = restartCount es.length * 4 :=
    Nat.mod_eq_of_lt (by omega)
  have hptr : (blockContents es).length - 4 - restartCount es.length * 4 =
      (encodeEntries 0 [] es).length := by omega
  have hread : ∀ i ∈ List.range (restartCount es.length),
      readFixed32 (blockContents es) ((encodeEntries 0 [] es).length + i * 4 % 2 ^ 32) =
        .ok (entryOffset es (kRestartInterval * i) % 2 ^ 32) := by
    intro i hi
    have hi := List.mem_range.mp hi
    have hdrop : (blockContents es).drop ((encodeEntries 0 [] es).length + i * 4) =
        encodeFixed32 (entryOffset es (kRestartInterval * i)) ++
          (((restartsOf es).drop (i + 1)).flatMap encodeFixed32 ++
            encodeFixed32 (restartCount es.length)) := by
      rw [blockContents, List.append_assoc, ← List.drop_drop, List.drop_left,
        List.drop_append_of_le_length (by rw [flatMap_encodeFixed32_length, restartsOf_length]; omega),
        drop_flatMap_encodeFixed32 (by rwa [restartsOf_length]), List.append_assoc]
      simp [restartsOf]
    rw [readFixed32, Nat.mod_eq_of_lt (by omega), if_pos (by omega), hdrop]
    exact congrArg Except.ok (decodeFixed_encodeFixed 4 _ _)
  unfold Block.new
  simp only [hcount, hsize, hptr]
  rw [if_neg (by omega), if_neg (by omega), mapM_ok hread, openedBlock, restartsOf, List.map_map]
  rfl

/-- The constructor on what the builder wrote. -/
theorem new_blockContents {es : List Entry} (h : (blockContents es).length < 2 ^ 32) :
    Block.new (blockContents es) = .ok (blockOf es) := by
  have hlen := blockContents_length es
  have hmod : (restartsOf es).map (· % 2 ^ 32) = restartsOf es := by
    conv_rhs => rw [← List.map_id (restartsOf es)]
    refine List.map_congr_left fun o ho => Nat.mod_eq_of_lt ?_
    obtain ⟨m, -, rfl⟩ := List.mem_map.mp ho
    exact entryOffset_le.trans_lt (by omega)
  rw [new_blockContents_of_count (by omega), openedBlock, hmod]
  rfl

/-! ### Sizes -/

/-- The bytes an entry takes in a block, at most. -/
def entryCost (e : Entry) : ℕ := e.1.length + e.2.length + 19

theorem entryBytes_length_le (shared : ℕ) (key value : Bytes) :
    (entryBytes shared key value).length ≤ key.length + value.length + 15 := by
  have h1 := putVarint32_length_le shared
  have h2 := putVarint32_length_le (key.length - shared)
  have h3 := putVarint32_length_le value.length
  simp only [entryBytes, List.length_append, List.length_drop]
  omega

theorem encodeEntries_length_le (i : ℕ) (prev : Bytes) (es : List Entry) :
    (encodeEntries i prev es).length + es.length * 4 ≤ (es.map entryCost).sum := by
  induction es generalizing i prev with
  | nil => simp [encodeEntries]
  | cons e es ih =>
      have h1 := entryBytes_length_le (sharedAt i prev e.1) e.1 e.2
      have h2 := ih (i + 1) e.1
      simp only [encodeEntries, List.length_append, List.length_cons, List.map_cons, List.sum_cons,
        entryCost] at *
      omega

theorem blockContents_length_le (es : List Entry) :
    (blockContents es).length ≤ (es.map entryCost).sum + 4 := by
  have h1 := blockContents_length es
  have h2 := encodeEntries_length_le 0 [] es
  have h3 : restartCount es.length ≤ es.length := by
    unfold restartCount kRestartInterval
    omega
  omega

/-! ### Entries -/

/-- A key is not longer than the entries up to its own. -/
theorem lastKey_length_le (es : List Entry) :
    (lastKey [] es).length ≤ (encodeEntries 0 [] es).length := by
  induction es using List.reverseRecOn with
  | nil => exact le_refl _
  | append_singleton es e ih =>
      have hshared : sharedAt es.length (lastKey [] es) e.1 ≤ (lastKey [] es).length := by
        unfold sharedAt
        split
        · exact Nat.zero_le _
        · exact (commonPrefix_le _ _).2.1
      rw [lastKey_append, encodeEntries_append]
      simp only [encodeEntries, entryBytes, Nat.zero_add, List.length_append, List.length_drop]
      omega

theorem sharedAt_le (i : ℕ) (prev key : Bytes) :
    sharedAt i prev key ≤ key.length ∧ sharedAt i prev key ≤ prev.length ∧
      key.take (sharedAt i prev key) = prev.take (sharedAt i prev key) := by
  unfold sharedAt
  split
  · simp
  · exact commonPrefix_le key prev

theorem decodeLengths_entryBytes {shared : ℕ} {key value : Bytes} (h1 : shared < 2 ^ 32)
    (h2 : key.length - shared < 2 ^ 32) (h3 : value.length < 2 ^ 32) (t : Bytes) :
    Block.decodeLengths (entryBytes shared key value ++ t) =
      some (shared, key.length - shared, value.length, key.drop shared ++ (value ++ t)) := by
  unfold Block.decodeLengths entryBytes
  simp only [List.append_assoc, getVarint32_putVarint32 h1, getVarint32_putVarint32 h2,
    getVarint32_putVarint32 h3]

namespace Block

/-- The iterator stands on the `j`-th entry. -/
structure At (es : List Entry) (j : ℕ) (it : Iterator) : Prop where
  lt : j < es.length
  valid : it.valid = true
  key_eq : it.key = es[j].1
  current_eq : it.current = entryOffset es (j + 1)
  value_eq : (blockOf es).value it = .ok es[j].2

variable {es : List Entry}

/-- Decoding the `j`-th entry behind the key before it. -/
theorem decodeEntry_at (h : (blockContents es).length < 2 ^ 32) {j : ℕ} (hj : j < es.length)
    {it : Iterator} (hcur : it.current = entryOffset es j)
    (hkey : j % kRestartInterval = 0 ∨ it.key = lastKey [] (es.take j)) :
    ∃ it', (blockOf es).decodeEntry it = .ok it' ∧ At es j it' ∧
      it'.restart_index = it.restart_index := by
  have hlen := blockContents_length es
  obtain ⟨A, hA⟩ : ∃ A, A = encodeEntries 0 [] (es.take j) := ⟨_, rfl⟩
  obtain ⟨R, hR⟩ : ∃ R, R = encodeEntries (j + 1) es[j].1 (es.drop (j + 1)) := ⟨_, rfl⟩
  obtain ⟨shared, hshared⟩ : ∃ s, s = sharedAt j (lastKey [] (es.take j)) es[j].1 := ⟨_, rfl⟩
  have hsplit := encodeEntries_split hj
  have hsucc := entryOffset_succ hj
  rw [← hshared, ← hA, ← hR] at hsplit
  rw [← hshared] at hsucc
  have hoff : entryOffset es j = A.length := by rw [hA]; rfl
  obtain ⟨hle1, hle2, htake⟩ := sharedAt_le j (lastKey [] (es.take j)) es[j].1
  rw [← hshared] at hle1 hle2 htake
  have hprev : (lastKey [] (es.take j)).length ≤ A.length := hA ▸ lastKey_length_le _
  have hentry : (entryBytes shared es[j].1 es[j].2).length =
      (putVarint32 shared).length + ((putVarint32 (es[j].1.length - shared)).length +
        ((putVarint32 es[j].2.length).length + ((es[j].1.length - shared) + es[j].2.length))) := by
    simp [entryBytes]
  have htotal : (encodeEntries 0 [] es).length =
      A.length + ((entryBytes shared es[j].1 es[j].2).length + R.length) := by
    rw [hsplit, List.length_append, List.length_append]
  have hpos := putVarint32_length_pos shared
  have hinput : ((blockOf es).contents.take (blockOf es).data_size).drop it.current =
      entryBytes shared es[j].1 es[j].2 ++ R := by
    have htake : (blockContents es).take (encodeEntries 0 [] es).length = encodeEntries 0 [] es := by
      rw [blockContents, List.append_assoc, List.take_left]
    simp only [blockOf, htake]
    rw [hcur, hoff, hsplit, List.drop_left]
  have hlens : decodeLengths (((blockOf es).contents.take (blockOf es).data_size).drop it.current) =
      some (shared, es[j].1.length - shared, es[j].2.length,
        es[j].1.drop shared ++ (es[j].2 ++ R)) := by
    rw [hinput, decodeLengths_entryBytes (by omega) (by omega) (by omega)]
  have hrest : (es[j].1.drop shared ++ (es[j].2 ++ R)).length =
      es[j].1.length - shared + (es[j].2.length + R.length) := by simp
  have hsize : (blockOf es).data_size = (encodeEntries 0 [] es).length := rfl
  have hvoff : (encodeEntries 0 [] es).length -
      (es[j].1.length - shared + (es[j].2.length + R.length) - (es[j].1.length - shared)) =
        A.length + (entryBytes shared es[j].1 es[j].2).length - es[j].2.length := by omega
  have hcurrent : (it.current + (A.length + (entryBytes shared es[j].1 es[j].2).length -
      es[j].2.length - it.current + es[j].2.length) % 2 ^ 32) % 2 ^ 32 = entryOffset es (j + 1) := by
    rw [hsucc, hoff, hcur, hoff]
    rw [Nat.mod_eq_of_lt (a := A.length + _ - _ - _ + _) (by omega), Nat.mod_eq_of_lt (by omega)]
    omega
  have hkey' : resizeBytes it.key shared ++
      (es[j].1.drop shared ++ (es[j].2 ++ R)).take (es[j].1.length - shared) = es[j].1 := by
    have hresize : resizeBytes it.key shared = es[j].1.take shared := by
      rcases hkey with h0 | hk
      · have : shared = 0 := by rw [hshared, sharedAt, if_pos h0]
        subst this
        simp [resizeBytes]
      · rw [resizeBytes, hk, Nat.sub_eq_zero_of_le hle2, List.replicate_zero, List.append_nil, htake]
    rw [hresize, List.take_left' (by rw [List.length_drop]), List.take_append_drop]
  have hvalue : (blockContents es).drop
        (A.length + (entryBytes shared es[j].1 es[j].2).length - es[j].2.length) =
      es[j].2 ++ (R ++ ((restartsOf es).flatMap encodeFixed32 ++
        encodeFixed32 (restartCount es.length))) := by
    have hassoc : blockContents es = (A ++ (putVarint32 shared ++
          (putVarint32 (es[j].1.length - shared) ++ (putVarint32 es[j].2.length ++
            es[j].1.drop shared)))) ++ (es[j].2 ++ (R ++ ((restartsOf es).flatMap encodeFixed32 ++
        encodeFixed32 (restartCount es.length)))) := by
      rw [blockContents, hsplit]
      simp only [entryBytes, List.append_assoc]
    rw [hassoc]
    refine List.drop_left' ?_
    rw [hentry]
    simp only [List.length_append, List.length_drop]
    omega
  refine ⟨⟨entryOffset es (j + 1), it.restart_index, es[j].1,
    A.length + (entryBytes shared es[j].1 es[j].2).length - es[j].2.length, es[j].2.length, true⟩,
    ?_, ⟨hj, rfl, rfl, rfl, ?_⟩, rfl⟩
  · unfold decodeEntry
    rw [if_neg (by rw [hsize, hcur, hoff]; omega), hlens]
    simp only
    rw [if_neg (by omega), hrest, hsize, hvoff, hcurrent, hkey']
  · have hin : A.length + (entryBytes shared es[j].1 es[j].2).length - es[j].2.length +
        es[j].2.length ≤ (blockContents es).length := by omega
    refine (if_pos hin).trans ?_
    rw [show (blockOf es).contents = blockContents es from rfl, hvalue, List.take_left]

/-- The iterator stands on the `j`-th entry, or behind the last one and is not valid. -/
def Stands (es : List Entry) (j : ℕ) (it : Iterator) : Prop :=
  At es j it ∨ es.length ≤ j ∧ it.valid = false

theorem Stands.valid_iff {j : ℕ} {it : Iterator} (h : Stands es j it) :
    it.valid = true ↔ j < es.length := by
  rcases h with h | ⟨h, hv⟩
  · exact ⟨fun _ => h.lt, fun _ => h.valid⟩
  · simp [hv, h]

/-- Decoding where the `j`-th entry starts, or at the end of the entries. -/
theorem decodeEntry_stands (h : (blockContents es).length < 2 ^ 32) {j : ℕ} (hj : j ≤ es.length)
    {it : Iterator} (hcur : it.current = entryOffset es j)
    (hkey : j % kRestartInterval = 0 ∨ it.key = lastKey [] (es.take j)) :
    ∃ it', (blockOf es).decodeEntry it = .ok it' ∧ Stands es j it' := by
  rcases hj.lt_or_eq with hlt | rfl
  · obtain ⟨it', h1, h2, -⟩ := decodeEntry_at h hlt hcur hkey
    exact ⟨it', h1, Or.inl h2⟩
  · refine ⟨_, if_pos ?_, Or.inr ⟨le_refl _, rfl⟩⟩
    rw [hcur, entryOffset_length]
    exact le_refl _

theorem advanceRestart_eq (b : Block) (it : Iterator) :
    ∃ n, b.advanceRestart it = { it with restart_index := n } := by
  induction it using advanceRestart.induct b with
  | case1 it h hcur ih =>
      obtain ⟨n, hn⟩ := ih
      exact ⟨n, by rw [advanceRestart, dif_pos h, if_pos hcur, hn]⟩
  | case2 it h hcur => exact ⟨it.restart_index, by rw [advanceRestart, dif_pos h, if_neg hcur]⟩
  | case3 it h => exact ⟨it.restart_index, by rw [advanceRestart, dif_neg h]⟩

theorem Stands.restart_index {j : ℕ} {it : Iterator} (h : Stands es j it) (n : ℕ) :
    Stands es j { it with restart_index := n } := by
  rcases h with h | h
  · exact Or.inl ⟨h.lt, h.valid, h.key_eq, h.current_eq, h.value_eq⟩
  · exact Or.inr h

/-- `Next` goes to the next entry. -/
theorem At.next (h : (blockContents es).length < 2 ^ 32) {j : ℕ} {it : Iterator} (hat : At es j it) :
    ∃ it', (blockOf es).next it = .ok it' ∧ Stands es (j + 1) it' := by
  have hkey : it.key = lastKey [] (es.take (j + 1)) := by
    rw [hat.key_eq, List.take_succ_eq_append_getElem hat.lt, lastKey_append]
  obtain ⟨it', h1, h2⟩ := decodeEntry_stands h (Nat.succ_le_of_lt hat.lt) hat.current_eq (Or.inr hkey)
  obtain ⟨n, hn⟩ := advanceRestart_eq (blockOf es) it'
  refine ⟨{ it' with restart_index := n }, ?_, h2.restart_index n⟩
  rw [Block.next, hat.valid, h1, ← hn]
  rfl

/-! ### Seek and iteration -/

/-- Whether the `i`-th stored key is below the target. -/
def keyBelow (es : List Entry) (target : Bytes) (i : ℕ) : Bool :=
  match es[i]? with
  | some e => decide (e.1 < target)
  | none => false

theorem At.below_iff {j : ℕ} {it : Iterator} (h : At es j it) (target : Bytes) :
    Slice.compare it.key target < 0 ↔ keyBelow es target j = true := by
  rw [Slice.compare_neg_iff, h.key_eq, keyBelow, List.getElem?_eq_getElem h.lt, decide_eq_true_iff]

theorem restart_blockOf {m : ℕ} (h : m < restartCount es.length) :
    (blockOf es).restart m = .ok (entryOffset es (kRestartInterval * m)) := by
  have : (restartsOf es)[m]? = some (entryOffset es (kRestartInterval * m)) := by
    rw [restartsOf, List.getElem?_map, List.getElem?_range h, Option.map_some]
  rw [restart, show (blockOf es).restarts = restartsOf es from rfl, this]

/-- Decoding at a restart point. -/
theorem decodeEntry_restart (h : (blockContents es).length < 2 ^ 32) {m : ℕ}
    (hm : m < restartCount es.length) {it : Iterator}
    (hcur : it.current = entryOffset es (kRestartInterval * m)) :
    ∃ it', (blockOf es).decodeEntry it = .ok it' ∧ At es (kRestartInterval * m) it' := by
  have hlt : kRestartInterval * m < es.length := by
    unfold restartCount kRestartInterval at *
    omega
  obtain ⟨it', h1, h2, -⟩ := decodeEntry_at h hlt hcur (Or.inl (Nat.mul_mod_right _ _))
  exact ⟨it', h1, h2⟩

@[simp] theorem ofExcept_ok_bind {α β : Type} (a : α) (f : α → Exec β) :
    (Exec.ofExcept (.ok a) >>= f) = f a := rfl

theorem seekRestart_eq (h : (blockContents es).length < 2 ^ 32) (target : Bytes) (it : Iterator)
    {left right : ℕ} (hle : left ≤ right) (hr : right < restartCount es.length) :
    ∃ it', (blockOf es).seekRestart target it left right =
      pure (it', SkipSearch.bisect (fun m => keyBelow es target (kRestartInterval * m)) left right) := by
  have hlen := blockContents_length es
  induction hn : right - left using Nat.strongRecOn generalizing it left right with
  | ind n ih =>
      rw [seekRestart]
      by_cases hlt : left < right
      · have hmid : (left + right + 1) % 2 ^ 32 / 2 = (left + right + 1) / 2 := by
          rw [Nat.mod_eq_of_lt (by omega)]
        have hback : ((left + right + 1) / 2 + 2 ^ 32 - 1) % 2 ^ 32 = (left + right + 1) / 2 - 1 := by
          omega
        obtain ⟨it', h1, h2⟩ := @decodeEntry_restart _ h ((left + right + 1) / 2) (by omega)
          { it with current := entryOffset es (kRestartInterval * ((left + right + 1) / 2)) } rfl
        rw [if_pos hlt, hmid]
        simp only [restart_blockOf (show (left + right + 1) / 2 < restartCount es.length by omega),
          hback, ofExcept_ok_bind, h1, h2.below_iff]
        by_cases hb : keyBelow es target (kRestartInterval * ((left + right + 1) / 2)) = true
        · rw [if_pos hb, SkipSearch.bisect_of_lt_below _ hlt hb]
          exact ih _ (by omega) it' (by omega) hr rfl
        · rw [if_neg hb, SkipSearch.bisect_of_lt_not_below _ hlt hb]
          exact ih _ (by omega) it' (by omega) (by omega) rfl
      · rw [if_neg hlt, SkipSearch.bisect_of_not_lt _ hlt]
        exact ⟨it, rfl⟩

theorem seekScan_eq (h : (blockContents es).length < 2 ^ 32) (target : Bytes) {j : ℕ}
    {it : Iterator} (hs : Stands es j it) :
    ∃ it', (blockOf es).seekScan target it = pure it' ∧
      Stands es (SkipSearch.firstNot (keyBelow es target) j es.length) it' := by
  induction hn : es.length - j using Nat.strongRecOn generalizing it j with
  | ind n ih =>
      rw [seekScan, SkipSearch.firstNot]
      rcases hs with hat | ⟨hj, hv⟩
      · have hlt := hat.lt
        rw [if_pos hlt]
        by_cases hb : keyBelow es target j = true
        · obtain ⟨it', h1, h2⟩ := hat.next h
          rw [if_pos ⟨hat.valid, (hat.below_iff target).mpr hb⟩, if_pos hb, h1, ofExcept_ok_bind]
          exact ih _ (by omega) h2 rfl
        · rw [if_neg fun hc => hb ((hat.below_iff target).mp hc.2), if_neg hb]
          exact ⟨it, rfl, Or.inl hat⟩
      · rw [if_neg (by simp [hv]), if_neg (by omega)]
        exact ⟨it, rfl, Or.inr ⟨le_refl _, hv⟩⟩

theorem restartCount_eq_zero {n : ℕ} : restartCount n = 0 ↔ n = 0 := by
  unfold restartCount kRestartInterval
  omega

theorem restarts_eq_nil : (blockOf es).restarts = [] ↔ es = [] := by
  rw [show (blockOf es).restarts = restartsOf es from rfl, ← List.length_eq_zero_iff,
    restartsOf_length, restartCount_eq_zero, List.length_eq_zero_iff]

/-- **`Seek` is the search over the stored keys**, in whatever order they are. -/
theorem seek_eq (h : (blockContents es).length < 2 ^ 32) (target : Bytes) (it : Iterator) :
    ∃ it', (blockOf es).seek target it = pure it' ∧
      Stands es (SkipSearch.skipSearch (keyBelow es target) kRestartInterval es.length) it' := by
  unfold seek
  by_cases hes : es = []
  · rw [if_pos (restarts_eq_nil.mpr hes)]
    exact ⟨_, rfl, Or.inr ⟨by simp [hes], rfl⟩⟩
  · have hpos := List.length_pos_iff.mpr hes
    have hright : (blockOf es).restarts.length - 1 = (es.length - 1) / kRestartInterval := by
      rw [show (blockOf es).restarts = restartsOf es from rfl, restartsOf_length]
      unfold restartCount kRestartInterval
      omega
    have hlast : (es.length - 1) / kRestartInterval < restartCount es.length := by
      unfold restartCount kRestartInterval
      omega
    rw [if_neg (mt restarts_eq_nil.mp hes), hright]
    obtain ⟨it1, h1⟩ := seekRestart_eq h target it (Nat.zero_le _) hlast
    have hleft := (SkipSearch.bisect_le (fun m => keyBelow es target (kRestartInterval * m))
      (Nat.zero_le ((es.length - 1) / kRestartInterval))).trans_lt hlast
    unfold SkipSearch.skipSearch
    generalize SkipSearch.bisect (fun m => keyBelow es target (kRestartInterval * m)) 0
      ((es.length - 1) / kRestartInterval) = left at h1 hleft ⊢
    obtain ⟨it2, h2, h3⟩ := @decodeEntry_restart _ h _ hleft
      { it1 with restart_index := left, current := entryOffset es (kRestartInterval * left) } rfl
    obtain ⟨it3, h4, h5⟩ := seekScan_eq h target (Or.inl h3)
    refine ⟨it3, ?_, h5⟩
    rw [h1, pure_bind]
    simp only [restart_blockOf hleft, ofExcept_ok_bind, h2]
    exact h4

theorem collect_eq (h : (blockContents es).length < 2 ^ 32) {j : ℕ} {it : Iterator}
    (hs : Stands es j it) : (blockOf es).collect it = pure (es.drop j) := by
  induction hn : es.length - j using Nat.strongRecOn generalizing it j with
  | ind n ih =>
      rw [collect]
      rcases hs with hat | ⟨hj, hv⟩
      · have hlt := hat.lt
        obtain ⟨it', h1, h2⟩ := hat.next h
        simp only [hat.valid, if_true, hat.value_eq, h1, ofExcept_ok_bind]
        rw [ih _ (by omega) h2 rfl, pure_bind, hat.key_eq, List.drop_eq_getElem_cons hlt]
      · rw [if_neg (by simp [hv]), List.drop_eq_nil_of_le hj]

/-- **Iterating over a block yields its entries.** -/
theorem walk_eq (h : (blockContents es).length < 2 ^ 32) : (blockOf es).walk = pure es := by
  unfold walk
  by_cases hes : es = []
  · subst hes
    rw [show (blockOf []).seekToFirst newIterator = .ok newIterator from rfl, ofExcept_ok_bind]
    exact collect_eq h (j := 0) (Or.inr ⟨le_refl _, rfl⟩)
  · have hpos := List.length_pos_iff.mpr hes
    obtain ⟨o, os, ho⟩ := List.exists_cons_of_ne_nil (mt restarts_eq_nil.mp hes)
    have hzero : o = entryOffset es (kRestartInterval * 0) := by
      have h0 := @restart_blockOf es 0 (by
        rw [Nat.pos_iff_ne_zero, Ne, restartCount_eq_zero]; omega)
      rw [restart, ho] at h0
      exact Except.ok.inj h0
    obtain ⟨it', h1, h2⟩ := @decodeEntry_stands _ h 0 (Nat.zero_le es.length)
      { newIterator with restart_index := 0, current := o } hzero (Or.inl rfl)
    have hfirst : (blockOf es).seekToFirst newIterator = .ok it' := by
      rw [seekToFirst, ho]
      exact h1
    rw [hfirst, ofExcept_ok_bind, collect_eq h h2, List.drop_zero]

/-! ### Blocks in bytewise order -/

theorem finish_length (es : List Entry) :
    (BlockBuilder.empty.addAll es).finish.length = (blockContents es).length := by
  rw [BlockBuilder.addAll_eq, BlockBuilder.finish, blockContents_length]
  simp only [List.length_append, flatMap_encodeFixed32_length, List.length_map, restartsOf_length,
    encodeFixed32_length]

/-- In a sorted block the search finds the first key that is not below the target. -/
theorem skipSearch_of_sorted {es : List Entry} (hsorted : es.Pairwise fun a b => a.1 ≤ b.1)
    (target : Bytes) :
    SkipSearch.skipSearch (keyBelow es target) kRestartInterval es.length =
      es.findIdx fun e => target ≤ e.1 := by
  refine SkipSearch.skipSearch_of_sorted _ (by decide) List.findIdx_le_length (fun p hp => ?_)
    (fun p hp hlt => ?_)
  · have hnot := List.not_of_lt_findIdx hp
    rw [keyBelow, List.getElem?_eq_getElem (hp.trans_le List.findIdx_le_length), decide_eq_true_iff]
    simpa using hnot
  · have hfirst := of_decide_eq_true (List.findIdx_getElem (w := hp.trans_lt hlt))
    rw [keyBelow, List.getElem?_eq_getElem hlt, decide_eq_true_iff, not_lt]
    rcases hp.eq_or_lt with heq | hlt'
    · simpa only [← heq] using hfirst
    · exact hfirst.trans (List.pairwise_iff_getElem.mp hsorted _ p (hp.trans_lt hlt) hlt hlt')

/-- **`Seek` in a sorted block.**  From any position of the iterator it stops at the first pair whose
key is not below the target, and `Next` goes over the pairs from there on. -/
theorem seek_sorted {es : List Entry} (hsorted : es.Pairwise fun a b => a.1 ≤ b.1)
    (hfit : (BlockBuilder.empty.addAll es).finish.length < 2 ^ 32) (target : Bytes) (it : Iterator) :
    ∃ b it', Block.new (BlockBuilder.empty.addAll es).finish = .ok b ∧ b.seek target it = pure it' ∧
      (it'.valid = true ↔ ∃ e ∈ es, target ≤ e.1) ∧
      (∀ e, (es.find? fun e => target ≤ e.1) = some e → it'.key = e.1 ∧ b.value it' = .ok e.2) ∧
      b.collect it' = pure (es.drop (es.findIdx fun e => target ≤ e.1)) := by
  rw [finish_length] at hfit
  obtain ⟨it', hseek, hit⟩ := seek_eq hfit target it
  rw [skipSearch_of_sorted hsorted] at hit
  have hlen := blockContents_length es
  refine ⟨blockOf es, it', ?_, hseek, ?_, ?_, collect_eq hfit hit⟩
  · rw [BlockBuilder.finish_addAll, new_blockContents hfit]
  · rw [hit.valid_iff, List.findIdx_lt_length]
    simp
  · intro e he
    rw [List.find?_eq_getElem?_findIdx] at he
    obtain ⟨hlt, rfl⟩ := List.getElem?_eq_some_iff.mp he
    rcases hit with hat | ⟨hge, -⟩
    · exact ⟨hat.key_eq, hat.value_eq⟩
    · omega

/-- Three pairs, two of them under one key. -/
theorem seek_sorted_repeated :
    ∃ b it', Block.new (BlockBuilder.empty.addAll [([1], [7]), ([2], [8]), ([2], [9])]).finish =
        .ok b ∧ b.seek [2] newIterator = pure it' ∧ it'.key = [2] ∧ b.value it' = .ok [8] ∧
      b.collect it' = pure [([2], [8]), ([2], [9])] := by
  have hfit : (BlockBuilder.empty.addAll [([1], [7]), ([2], [8]), ([2], [9])]).finish.length < 2 ^ 32 :=
    finish_length _ ▸ (blockContents_length_le _).trans_lt (by decide)
  obtain ⟨b, it', hb, hseek, -, hfound, hrest⟩ :=
    seek_sorted (by decide) hfit [2] newIterator
  obtain ⟨hkey, hvalue⟩ := hfound ([2], [8]) rfl
  exact ⟨b, it', hb, hseek, hkey, hvalue, hrest⟩

end Block
end MiniLevelDB
