import MiniLevelDB.MemTable
import MiniLevelDB.SkipList

/-! # The memtable on its skip list

`db/memtable.cc` over `SkipList<Key, Cmp>` with towers of any height.  A skip list that represents
the entries of a `MemTable` still does after `Add`, answers `Get` as the `MemTable` does, and is
iterated over in the order of its entries (`Table.addAll_represents`, `Table.get_represents`).  The
main result `Table.addAll_newest` says what is in a memtable after any calls of `Add`. -/

namespace MiniLevelDB

open SkipList

/-! ### Entries of equal keys -/

/-- A new entry comes before those that have its key. -/
theorem MemTable.insert_filter (e : Entry) (es : List Entry) (key : Bytes) :
    (MemTable.insert e es).filter (·.1 = key) =
      (if e.1 = key then [e] else []) ++ es.filter (·.1 = key) := by
  induction es with
  | nil => by_cases h : e.1 = key <;> simp [MemTable.insert, h]
  | cons a es ih =>
      by_cases hle : Entry.Le e a
      · rw [MemTable.insert, List.orderedInsert_cons_of_le _ _ hle]
        by_cases h : e.1 = key <;> simp [h]
      · have hne : e.1 = key → a.1 ≠ key := by
          intro he ha
          apply hle
          rw [Entry.Le, he, ha, ← Bool.not_eq_true, internalKeyLess_iff]
          simp
        rw [MemTable.insert, List.orderedInsert_of_not_le _ _ hle, ← MemTable.insert]
        by_cases h : e.1 = key
        · have ha := hne h
          simpa [h, ha] using ih
        · by_cases ha : a.1 = key <;> simpa [h, ha] using ih

/-- Among entries of one key the last one added is the first. -/
theorem MemTable.addAll_filter (m : MemTable) (calls : List AddCall) (key : Bytes) :
    (m.addAll calls).table.filter (·.1 = key) =
      ((calls.map AddCall.entry).filter (·.1 = key)).reverse ++ m.table.filter (·.1 = key) := by
  induction calls generalizing m with
  | nil => rfl
  | cons c calls ih =>
      rw [MemTable.addAll, List.foldl_cons, ← MemTable.addAll, ih, MemTable.table_add,
        MemTable.insert_filter, List.map_cons, List.filter_cons, ← AddCall.entry]
      by_cases h : c.entry.1 = key <;> simp [h]

theorem MemTable.perm_addAll (m : MemTable) (calls : List AddCall) :
    (m.addAll calls).table.Perm (calls.map AddCall.entry ++ m.table) := by
  induction calls generalizing m with
  | nil => exact List.Perm.refl _
  | cons c calls ih =>
      refine (ih _).trans ?_
      rw [MemTable.table_add, MemTable.insert, ← AddCall.entry]
      exact ((List.perm_orderedInsert _ _ _).append_left _).trans List.perm_middle

/-- The tag of a call's entry. -/
def AddCall.tag (c : AddCall) : ℕ := packSequenceAndType c.seq c.type

/-- What a call stores for its key. -/
def AddCall.result (c : AddCall) : LookupState :=
  match c.type with
  | .kTypeValue => .kValue c.value
  | .kTypeDeletion => .kDeleted

theorem AddCall.entry_result (c : AddCall) : c.entry.result = c.result := by
  have hmod : packSequenceAndType c.seq c.type &&& 0xff = c.type.toNat := by
    rw [← packSequenceAndType_mod c.seq c.type]
    exact Nat.and_two_pow_sub_one_eq_mod _ 8
  rw [Entry.result, AddCall.entry, entryOf, extractTag_internalKey, hmod, AddCall.result]
  cases c.type <;> rfl

/-- `c` is the call of the highest tag on `k`, the last one if several have that tag. -/
def NewestCall (k : Bytes) (calls : List AddCall) (c : AddCall) : Prop :=
  c.key = k ∧ ∃ earlier later, calls = earlier ++ c :: later ∧
    (∀ c' ∈ earlier, c'.key = k → c'.tag ≤ c.tag) ∧ ∀ c' ∈ later, c'.key = k → c'.tag < c.tag

/-- The last element of a list with a property, and what comes behind it. -/
theorem exists_split_last {α β : Type} [DecidableEq β] (f : α → β) (b : β) (l : List α) (a : α)
    (h : (l.filter (f · = b)).getLast? = some a) :
    f a = b ∧ ∃ before after, l = before ++ a :: after ∧ ∀ x ∈ after, f x ≠ b := by
  induction l using List.reverseRecOn with
  | nil => cases h
  | append_singleton l x ih =>
      by_cases hx : f x = b
      · obtain rfl : x = a := by simpa [List.filter_append, hx] using h
        exact ⟨hx, l, [], rfl, by simp⟩
      · obtain ⟨ha, before, after, rfl, hafter⟩ := ih (by simpa [List.filter_append, hx] using h)
        refine ⟨ha, before, after ++ [x], by simp, fun y hy => ?_⟩
        rcases List.mem_append.mp hy with hy | hy
        · exact hafter y hy
        · rwa [List.mem_singleton.mp hy]

theorem AddCall.entry_tag (c : AddCall) : extractTag c.entry.1 = c.tag := extractTag_internalKey _ _ _

/-- Calls on one key with one tag have one internal key. -/
theorem AddCall.entry_key_eq {c c' : AddCall} (hkey : c.key = c'.key) (htag : c.tag = c'.tag) :
    c.entry.1 = c'.entry.1 := by
  have htag : packSequenceAndType c.seq c.type = packSequenceAndType c'.seq c'.type := htag
  rw [AddCall.entry, AddCall.entry, entryOf, entryOf, internalKey, internalKey, hkey, htag]

namespace MemTable

/-- The first entry of a user key after calls of `Add`: the one of the newest call. -/
theorem firstFor_addAll (calls : List AddCall) {k : Bytes} {e : Entry}
    (h : firstFor k (empty.addAll calls).table = some e) :
    ∃ c, NewestCall k calls c ∧ c.entry = e := by
  have hsorted := (empty.addAll calls).sorted
  obtain ⟨hk, before, after, hsplit, hbefore⟩ := List.find?_eq_some_iff_append.mp h
  have hk : e.userKey = k := by simpa using hk
  have hhead : ((empty.addAll calls).table.filter (·.1 = e.1)).head? = some e := by
    rw [List.head?_filter, List.find?_eq_some_iff_append]
    refine ⟨by simp, before, after, hsplit, fun a ha => ?_⟩
    have hne : a.userKey ≠ k := by simpa using hbefore a ha
    have hne' : a.1 ≠ e.1 := fun heq => hne (by rw [← hk, Entry.userKey, Entry.userKey, heq])
    simpa using hne'
  rw [addAll_filter, table_empty, List.filter_nil, List.append_nil, List.head?_reverse,
    List.filter_map, List.getLast?_map, Option.map_eq_some_iff] at hhead
  obtain ⟨c, hlast, rfl⟩ := hhead
  obtain ⟨-, earlier, later, rfl, hlater⟩ := exists_split_last (fun c : AddCall => c.entry.1)
    c.entry.1 calls c hlast
  rw [AddCall.entry_userKey] at hk
  have hle : ∀ c' ∈ earlier ++ c :: later, c'.key = k → c'.tag ≤ c.tag := by
    intro c' hc' hk'
    rw [← AddCall.entry_tag, ← AddCall.entry_tag]
    exact tag_le_of_firstFor hsorted h (mem_addAll.mpr (Or.inr ⟨c', hc', rfl⟩))
      (by rw [AddCall.entry_userKey, hk'])
  refine ⟨c, ⟨hk, earlier, later, rfl, ?_, ?_⟩, rfl⟩
  · exact fun c' hc' => hle c' (List.mem_append_left _ hc')
  · intro c' hc' hk'
    refine lt_of_le_of_ne (hle c' (List.mem_append_right _ (List.mem_cons_of_mem _ hc')) hk') fun ht => ?_
    exact hlater c' hc' (AddCall.entry_key_eq (hk'.trans hk.symm) ht)

theorem firstFor_addAll_eq_none_iff (calls : List AddCall) (k : Bytes) :
    firstFor k (empty.addAll calls).table = none ↔ ∀ c ∈ calls, c.key ≠ k := by
  rw [firstFor, List.find?_eq_none]
  constructor
  · intro h c hc hk
    exact h c.entry (mem_addAll.mpr (Or.inr ⟨c, hc, rfl⟩)) (by simp [hk])
  · intro h e he
    rcases mem_addAll.mp he with he | ⟨c, hc, rfl⟩
    · cases he
    · simpa using h c hc

end MemTable

/-! ### The table -/

/-- `MemTable::Cmp`. -/
def MemTable.cmp (a b : Entry) : Bool := internalKeyLess a.1 b.1

instance : Std.Total (KeyLe MemTable.cmp) := inferInstanceAs (Std.Total Entry.Le)

instance : IsTrans Entry (KeyLe MemTable.cmp) := inferInstanceAs (IsTrans Entry Entry.Le)

/-- `MemTable::Table`. -/
abbrev MemTable.Table := SkipList Entry

namespace MemTable.Table

/-- `MemTable::Add`, for a tower of height `h`. -/
def add (t : Table) (c : AddCall) (h : TowerHeight) : Option Table :=
  t.insert cmp (entryOf c.seq c.type c.key c.value) h.1

/-- A table after calls of `Add`. -/
def addAll (t : Table) (calls : List (AddCall × TowerHeight)) : Option Table :=
  calls.foldlM (fun t c => t.add c.1 c.2) t

/-- `MemTable::Get`. -/
def get (t : Table) (user_key : Bytes) : Option LookupState :=
  (t.seek cmp (internalKey user_key kMaxSequenceNumber .kTypeValue, [])).map fun
    | none => .kNotFound
    | some n => if extractUserKey (t.key n).1 ≠ user_key then .kNotFound else (t.key n).result

/-- After any calls the skip list holds the entries of the memtable. -/
theorem addAll_represents {t : Table} {m : MemTable} (ht : Represents cmp t m.table)
    (calls : List (AddCall × TowerHeight)) :
    ∃ t', t.addAll calls = some t' ∧ Represents cmp t' (m.addAll (calls.map Prod.fst)).table := by
  induction calls generalizing t m with
  | nil => exact ⟨t, rfl, ht⟩
  | cons c calls ih =>
      obtain ⟨t₁, hadd, ht₁⟩ := insert_represents ht c.1.entry c.2
      obtain ⟨t', hrun, ht'⟩ := ih (m := m.add c.1.seq c.1.type c.1.key c.1.value) ht₁
      refine ⟨t', ?_, ht'⟩
      have hadd : t.add c.1 c.2 = some t₁ := hadd
      rw [addAll, List.foldlM_cons, hadd]
      exact hrun

/-- The skip list answers as the memtable does. -/
theorem get_represents {t : Table} {m : MemTable} (ht : Represents cmp t m.table) (k : Bytes) :
    t.get k = some (m.get k) := by
  obtain ⟨node, hseek, hnode⟩ := seek_represents ht (internalKey k kMaxSequenceNumber .kTypeValue, [])
  have hfind : (m.table.find? fun e => !internalKeyLess e.1 (internalKey k kMaxSequenceNumber .kTypeValue)) =
      node.map t.key := hnode.symm
  rw [get, hseek, MemTable.get, hfind]
  cases node <;> rfl

/-- After any calls of `Add`, in any order of the sequence numbers and with towers of any heights, the
memtable is iterated over in the order of the internal keys, every added entry once and the last
added first among those of one key.  `Get` finds nothing exactly for keys that were not added, and
else what the newest call stored. -/
theorem addAll_newest (calls : List (AddCall × TowerHeight)) :
    ∃ t : Table, addAll SkipList.empty calls = some t ∧
      (∃ es, t.toList = some es ∧ es.Perm (calls.map fun c => c.1.entry) ∧ es.Pairwise Entry.Le ∧
        ∀ key, es.filter (·.1 = key) = ((calls.map fun c => c.1.entry).filter (·.1 = key)).reverse) ∧
      ∀ k, (t.get k = some .kNotFound ↔ ∀ c ∈ calls, c.1.key ≠ k) ∧
        ((∃ c ∈ calls, c.1.key = k) →
          ∃ c, NewestCall k (calls.map Prod.fst) c ∧ t.get k = some c.result) := by
  have hempty : Represents cmp (SkipList.empty : Table) MemTable.empty.table := ⟨_, empty_levels, rfl⟩
  obtain ⟨t, hrun, ht⟩ := addAll_represents hempty calls
  have hentries : (calls.map Prod.fst).map AddCall.entry = calls.map fun c => c.1.entry :=
    List.map_map
  refine ⟨t, hrun, ⟨_, toList_represents ht, ?_, (MemTable.empty.addAll _).sorted, ?_⟩, fun k => ?_⟩
  · have hperm := MemTable.empty.perm_addAll (calls.map Prod.fst)
    rwa [MemTable.table_empty, List.append_nil, hentries] at hperm
  · intro key
    rw [MemTable.addAll_filter, MemTable.table_empty, List.filter_nil, List.append_nil, hentries]
  · have hnone := firstFor_addAll_eq_none_iff (calls.map Prod.fst) k
    rw [get_represents ht, MemTable.get_eq]
    cases hfirst : firstFor k (MemTable.empty.addAll (calls.map Prod.fst)).table with
    | none =>
        have hno : ∀ c ∈ calls, c.1.key ≠ k := fun c hc =>
          hnone.mp hfirst c.1 (List.mem_map_of_mem hc)
        exact ⟨iff_of_true rfl hno, fun ⟨c, hc, hk⟩ => absurd hk (hno c hc)⟩
    | some e =>
        obtain ⟨c, hc, rfl⟩ := firstFor_addAll _ hfirst
        have hresult : resultOf (some c.entry) = c.result := c.entry_result
        have hne : c.result ≠ .kNotFound := by
          unfold AddCall.result
          cases c.type <;> simp
        rw [hresult]
        refine ⟨iff_of_false (by simpa using hne) fun hno => ?_, fun _ => ⟨c, hc, rfl⟩⟩
        rw [hnone.mpr (by simpa using hno)] at hfirst
        cases hfirst

end MemTable.Table
end MiniLevelDB
