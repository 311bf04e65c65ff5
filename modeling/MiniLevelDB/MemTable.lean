import Mathlib.Data.List.Sort
import MiniLevelDB.DbFormat

/-! # The memtable

`db/memtable.cc` over the bottom level of the skip list (`db/skiplist.h`): the level on which every
node is, in the order of the comparator.  `insert` puts a node where `FindGreaterOrEqual` stops, in
front of the first node that is not less.  The arena is `util/arena.cc` as far as the memtable uses
it; it decides when the table is flushed.

A memtable carries in its type that its entries are sorted, that each key was made from a user
key and a tag, and how much memory the entries take. -/

namespace MiniLevelDB

/-! ### Arena -/

/-- `Arena`: the address and the number of the free bytes of the current block. -/
structure Arena where
  curr : ℕ
  avail : ℕ
  blocks_bytes : ℕ
deriving DecidableEq, Repr

namespace Arena

/-- `Arena()`; `curr_` is null. -/
def empty : Arena := ⟨0, 0, 0⟩

/-- `AllocateNewBlock`. -/
def allocateNewBlock (a : Arena) (block_bytes : ℕ) : Arena :=
  { a with blocks_bytes := a.blocks_bytes + block_bytes }

/-- `AllocateAligned`. -/
def allocateAligned (a : Arena) (bytes : ℕ) : Arena :=
  let align := 8
  let current_mod := a.curr &&& (align - 1)
  let slop := if current_mod = 0 then 0 else align - current_mod
  let needed := bytes + slop
  if needed ≤ a.avail then { a with curr := a.curr + needed, avail := a.avail - needed }
  else a.allocateNewBlock needed

/-- `MemoryUsage`. -/
def memoryUsage (a : Arena) : ℕ := a.blocks_bytes

/-- Without a current block every allocation is a block of its own. -/
theorem allocateAligned_of_no_block {used bytes : ℕ} (h : 0 < bytes) :
    (⟨0, 0, used⟩ : Arena).allocateAligned bytes = ⟨0, 0, used + bytes⟩ := by
  unfold allocateAligned allocateNewBlock
  simp [h.ne']

end Arena

/-! ### Entries -/

/-- `MemTable::Key`: an internal key and the value stored under it. -/
abbrev Entry := Bytes × Bytes

namespace Entry

def userKey (e : Entry) : Bytes := extractUserKey e.1

/-- The sequence number of an entry. -/
def seq (e : Entry) : ℕ := extractTag e.1 >>> 8

/-- What the entry stores for its user key: a value, or that it is deleted. -/
def result (e : Entry) : LookupState :=
  if extractTag e.1 &&& 0xff = 1 then .kValue e.2 else .kDeleted

/-- Entry order: not the other way round under `InternalKeyComparator`. -/
def Le (a b : Entry) : Prop := internalKeyLess b.1 a.1 = false

instance : DecidableRel Le := fun _ _ => inferInstanceAs (Decidable (_ = _))

theorem le_iff (a b : Entry) :
    Le a b ↔ userKey a < userKey b ∨ userKey a = userKey b ∧ extractTag b.1 ≤ extractTag a.1 := by
  unfold Le userKey
  rw [← Bool.not_eq_true, internalKeyLess_iff]
  rcases lt_trichotomy (extractUserKey a.1) (extractUserKey b.1) with h | h | h
  · simp [h, h.not_gt, h.ne']
  · simp [h]
  · simp [h, h.not_gt, h.ne']

instance : Std.Total Le where
  total a b := by
    rw [le_iff, le_iff]
    rcases lt_trichotomy (userKey a) (userKey b) with h | h | h
    · exact Or.inl (Or.inl h)
    · rcases le_total (extractTag b.1) (extractTag a.1) with h' | h'
      · exact Or.inl (Or.inr ⟨h, h'⟩)
      · exact Or.inr (Or.inr ⟨h.symm, h'⟩)
    · exact Or.inr (Or.inl h)

instance : IsTrans Entry Le where
  trans a b c := by
    rw [le_iff, le_iff, le_iff]
    rintro (h | ⟨h, ht⟩) (h' | ⟨h', ht'⟩)
    · exact Or.inl (h.trans h')
    · exact Or.inl (h' ▸ h)
    · exact Or.inl (h ▸ h')
    · exact Or.inr ⟨h.trans h', ht'.trans ht⟩

/-- The bytes the arena provides for an entry and its node. -/
def footprint (e : Entry) : ℕ := e.1.length + e.2.length + 128

end Entry

/-- The entry of a write. -/
def entryOf (seq : ℕ) (type : ValueType) (key value : Bytes) : Entry :=
  (internalKey key seq type, value)

/-- `sizeof(Node)`: two slices and twelve pointers. -/
def nodeSize : ℕ := 2 * 16 + 12 * 8

/-- `MemTable`. -/
structure MemTable where
  table : List Entry
  arena : Arena
  sorted : table.Pairwise Entry.Le
  keys : ∀ e ∈ table, ∃ key seq type, e.1 = internalKey key seq type
  arena_eq : arena = ⟨0, 0, nodeSize + (table.map Entry.footprint).sum⟩

namespace MemTable

/-- `MemTable()`: the arena holds the head node. -/
def empty : MemTable :=
  ⟨[], Arena.empty.allocateAligned nodeSize, List.Pairwise.nil, fun _ h => absurd h List.not_mem_nil, rfl⟩

/-- `SkipList::Insert` on the bottom level. -/
def insert (e : Entry) (table : List Entry) : List Entry := table.orderedInsert Entry.Le e

/-- `Add`. -/
def add (m : MemTable) (seq : ℕ) (type : ValueType) (key value : Bytes) : MemTable where
  table := insert (entryOf seq type key value) m.table
  arena := (m.arena.allocateAligned (key.length + 8 + value.length)).allocateAligned nodeSize
  sorted := m.sorted.orderedInsert _ _
  keys := by
    intro e he
    rcases (List.mem_orderedInsert _).mp he with rfl | he
    · exact ⟨key, seq, type, rfl⟩
    · exact m.keys e he
  arena_eq := by
    have hperm := ((List.perm_orderedInsert Entry.Le (entryOf seq type key value) m.table).map
      Entry.footprint).sum_eq
    rw [m.arena_eq, Arena.allocateAligned_of_no_block (by omega),
      Arena.allocateAligned_of_no_block (by decide), insert, hperm, List.map_cons, List.sum_cons]
    simp only [Entry.footprint, entryOf, internalKey_length, nodeSize]
    congr 1
    omega

/-- `Get`: the first entry not less than the user key with the greatest tag, if it is one of the
user key. -/
def get (m : MemTable) (user_key : Bytes) : LookupState :=
  let lookup := internalKey user_key kMaxSequenceNumber .kTypeValue
  match m.table.find? fun e => !internalKeyLess e.1 lookup with
  | none => .kNotFound
  | some entry => if extractUserKey entry.1 ≠ user_key then .kNotFound else entry.result

/-- `ApproximateMemoryUsage`. -/
def approximateMemoryUsage (m : MemTable) : ℕ := m.arena.memoryUsage

@[simp] theorem table_empty : empty.table = [] := rfl

@[simp] theorem table_add (m : MemTable) (seq : ℕ) (type : ValueType) (key value : Bytes) :
    (m.add seq type key value).table = insert (entryOf seq type key value) m.table := rfl

theorem approximateMemoryUsage_eq (m : MemTable) :
    m.approximateMemoryUsage = nodeSize + (m.table.map Entry.footprint).sum := by
  rw [approximateMemoryUsage, m.arena_eq]
  rfl

theorem mem_add {m : MemTable} {seq : ℕ} {type : ValueType} {key value : Bytes} {e : Entry} :
    e ∈ (m.add seq type key value).table ↔ e = entryOf seq type key value ∨ e ∈ m.table :=
  List.mem_orderedInsert _

theorem ext {m m' : MemTable} (h : m.table = m'.table) : m = m' := by
  have harena : m.arena = m'.arena := by rw [m.arena_eq, m'.arena_eq, h]
  cases m
  cases m'
  congr

end MemTable

/-! ### Sequences of calls -/

/-- The arguments of a call of `Add`. -/
structure AddCall where
  seq : ℕ
  type : ValueType
  key : Bytes
  value : Bytes

/-- The entry a call adds. -/
def AddCall.entry (c : AddCall) : Entry := entryOf c.seq c.type c.key c.value

@[simp] theorem AddCall.entry_userKey (c : AddCall) : c.entry.userKey = c.key :=
  extractUserKey_internalKey _ _ _

namespace MemTable

/-- A memtable after calls of `Add`. -/
def addAll (m : MemTable) (calls : List AddCall) : MemTable :=
  calls.foldl (fun m c => m.add c.seq c.type c.key c.value) m

theorem mem_addAll {m : MemTable} {calls : List AddCall} {e : Entry} :
    e ∈ (m.addAll calls).table ↔ e ∈ m.table ∨ ∃ c ∈ calls, e = c.entry := by
  induction calls generalizing m with
  | nil => simp [addAll]
  | cons c calls ih =>
      rw [addAll, List.foldl_cons, ← addAll, ih, mem_add, List.exists_mem_cons_iff, ← AddCall.entry]
      tauto

end MemTable

/-! ### Lookup -/

/-- The first entry of a user key: in a sorted table its newest. -/
def firstFor (user_key : Bytes) (es : List Entry) : Option Entry :=
  es.find? fun e => e.userKey = user_key

/-- What an optional entry answers. -/
def resultOf : Option Entry → LookupState
  | none => .kNotFound
  | some e => e.result

/-- The first entry of a user key has the greatest of its tags. -/
theorem tag_le_of_firstFor {k : Bytes} {es : List Entry} {e e' : Entry} (h : es.Pairwise Entry.Le)
    (hfirst : firstFor k es = some e) (he' : e' ∈ es) (hk : e'.userKey = k) :
    extractTag e'.1 ≤ extractTag e.1 := by
  induction es with
  | nil => cases he'
  | cons a es ih =>
      obtain ⟨hle, hes⟩ := List.pairwise_cons.mp h
      rw [firstFor, List.find?_cons] at hfirst
      by_cases ha : a.userKey = k
      · obtain rfl : a = e := by simpa [ha] using hfirst
        rcases List.mem_cons.mp he' with rfl | hmem
        · exact le_refl _
        · rcases (Entry.le_iff a e').mp (hle e' hmem) with hlt | hle
          · exact absurd (ha.trans hk.symm) hlt.ne
          · exact hle.2
      · have hmem : e' ∈ es := by
          rcases List.mem_cons.mp he' with rfl | hmem
          · exact absurd hk ha
          · exact hmem
        exact ih hes (by simpa [ha, firstFor] using hfirst) hmem

/-- In a sorted table the first entry whose user key is not below `k` decides about `k`. -/
theorem find_not_below {es : List Entry} (h : es.Pairwise Entry.Le) (k : Bytes) :
    firstFor k es = (es.find? fun e => !decide (e.userKey < k)).filter fun e => e.userKey = k := by
  induction es with
  | nil => rfl
  | cons e es ih =>
      obtain ⟨hle, hes⟩ := List.pairwise_cons.mp h
      rw [firstFor, List.find?_cons, List.find?_cons]
      rcases lt_trichotomy e.userKey k with hlt | heq | hgt
      · have := ih hes
        simpa [firstFor, hlt, hlt.ne] using this
      · simp [heq, Option.filter]
      · have hno : firstFor k es = none := by
          refine List.find?_eq_none.mpr fun e' he' => ?_
          have hge : e.userKey ≤ e'.userKey := by
            rcases (Entry.le_iff e e').mp (hle e' he') with h | h
            · exact h.le
            · exact h.1.le
          simpa using (hgt.trans_le hge).ne'
        rw [firstFor] at hno
        simp [hgt.not_gt, hgt.ne', hno, Option.filter]

namespace MemTable

/-- `Get` answers by the first entry of the user key. -/
theorem get_eq (m : MemTable) (k : Bytes) : m.get k = resultOf (firstFor k m.table) := by
  have hless : ∀ e ∈ m.table,
      internalKeyLess e.1 (internalKey k kMaxSequenceNumber .kTypeValue) = decide (e.userKey < k) := by
    intro e he
    obtain ⟨key, seq, type, hk⟩ := m.keys e he
    have htag : packSequenceAndType seq type ≤ packSequenceAndType kMaxSequenceNumber .kTypeValue := by
      have ht : type.toNat ≤ 1 := by cases type <;> decide
      have hmax : packSequenceAndType kMaxSequenceNumber .kTypeValue = (2 ^ 56 - 1) * 256 + 1 := rfl
      rw [hmax, packSequenceAndType_eq]
      omega
    rw [Bool.eq_iff_iff, internalKeyLess_iff, decide_eq_true_iff, Entry.userKey, hk]
    simp only [extractUserKey_internalKey, extractTag_internalKey]
    exact ⟨fun h => h.elim id fun h => absurd h.2 htag.not_gt, Or.inl⟩
  have hfind : (m.table.find? fun e =>
        !internalKeyLess e.1 (internalKey k kMaxSequenceNumber .kTypeValue)) =
      m.table.find? fun e => !decide (e.userKey < k) :=
    List.find?_congr fun e he => by rw [hless e he]
  rw [find_not_below m.sorted k, get, hfind]
  cases m.table.find? fun e => !decide (e.userKey < k) with
  | none => rfl
  | some e =>
      by_cases h : extractUserKey e.1 = k <;> simp [h, Entry.userKey, resultOf, Option.filter]

end MemTable
end MiniLevelDB
