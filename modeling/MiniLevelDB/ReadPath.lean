import MiniLevelDB.DbImpl
import MiniLevelDB.TableSearch

/-! # Reading through the layers

The layers of a database are the memtable and its tables, newest first.  `newest k` is the entry
they store for a key: the first layer that has one decides.  `DBImpl::Get` goes by `newestReadable`,
because it takes a table whose search misses the key, or whose data block cannot be read, for a
table without it.  `get_eq` says so, and `valueOf_newestReadable_iff` when it makes no difference. -/

namespace MiniLevelDB

/-- The entry that layers store for a key. -/
def newest (k : Bytes) (layers : List (List Entry)) : Option Entry := layers.findSome? (firstFor k)

/-- The value an entry gives its key; none for a deletion. -/
def valueOf : Option Entry → Option Bytes
  | none => none
  | some e => if extractTag e.1 &&& 0xff = 1 then some e.2 else none

/-- A table as it lies on a disk: its data blocks, and which of them can be read. -/
structure TableView where
  blocks : List (List Entry)
  intact : ℕ → Bool

namespace TableView

def entries (v : TableView) : List Entry := v.blocks.flatten

/-- `Get` finds the first entry of `k`: the searches reach it and its block can be read. -/
def Answers (v : TableView) (k : Bytes) : Prop :=
  Reachable v.blocks k ∧ v.intact (firstBlock k v.blocks) = true

instance (v : TableView) (k : Bytes) : Decidable (v.Answers k) :=
  inferInstanceAs (Decidable (_ ∧ _))

end TableView

/-- The first entry of `k` in the tables that answer for it. -/
def newestReadable (k : Bytes) (views : List TableView) : Option Entry :=
  views.findSome? fun v => if v.Answers k then firstFor k v.entries else none

/-- The newest table that stores `k` answers for it, or else the newest one below that does gives the
same value. -/
def Faithful (k : Bytes) : List TableView → Prop
  | [] => True
  | v :: views =>
      match firstFor k v.entries with
      | none => Faithful k views
      | some e => v.Answers k ∨ valueOf (some e) = valueOf (newestReadable k views)

theorem newest_cons (k : Bytes) (es : List Entry) (layers : List (List Entry)) :
    newest k (es :: layers) = (firstFor k es).or (newest k layers) := by
  rw [newest, List.findSome?_cons]
  cases firstFor k es <;> rfl

theorem newestReadable_cons (k : Bytes) (v : TableView) (views : List TableView) :
    newestReadable k (v :: views) =
      if v.Answers k then (firstFor k v.entries).or (newestReadable k views)
      else newestReadable k views := by
  rw [newestReadable, List.findSome?_cons]
  by_cases h : v.Answers k
  · rw [if_pos h, if_pos h]
    cases firstFor k v.entries <;> rfl
  · rw [if_neg h, if_neg h]
    rfl

/-- **What the reads that go wrong are.** -/
theorem valueOf_newestReadable_iff (k : Bytes) (views : List TableView) :
    valueOf (newestReadable k views) = valueOf (newest k (views.map TableView.entries)) ↔
      Faithful k views := by
  induction views with
  | nil => exact ⟨fun _ => trivial, fun _ => rfl⟩
  | cons v views ih =>
      rw [List.map_cons, newest_cons, newestReadable_cons, Faithful]
      cases hfirst : firstFor k v.entries with
      | none => simpa using ih
      | some e =>
          by_cases h : v.Answers k
          · rw [if_pos h]
            exact ⟨fun _ => Or.inl h, fun _ => rfl⟩
          · rw [if_neg h]
            exact ⟨fun heq => Or.inr heq.symm, fun hor => (hor.resolve_left h).symm⟩

/-! ### `Get` -/

/-- What `Get` returns for the entry it finds. -/
def answer (key : Bytes) (e : Option Entry) : Except Status Bytes :=
  match valueOf e with
  | some value => .ok value
  | none => .error (Status.notFound key)

theorem answer_none (key : Bytes) : answer key none = .error (Status.notFound key) := rfl

theorem answer_eq_ok_iff {key value : Bytes} {e : Option Entry} :
    answer key e = .ok value ↔ valueOf e = some value := by
  unfold answer
  cases valueOf e <;> simp

theorem answer_eq_error_iff {key : Bytes} {e : Option Entry} :
    answer key e = .error (Status.notFound key) ↔ valueOf e = none := by
  unfold answer
  cases valueOf e <;> simp

/-- The three results of a layer, as `Get` goes on from them. -/
theorem result_cases (e : Entry) :
    (∃ v, e.result = .kValue v ∧ valueOf (some e) = some v) ∨
      (e.result = .kDeleted ∧ valueOf (some e) = none) := by
  unfold Entry.result valueOf
  by_cases h : extractTag e.1 &&& 0xff = 1
  · exact Or.inl ⟨e.2, if_pos h, if_pos h⟩
  · exact Or.inr ⟨if_neg h, if_neg h⟩

namespace DBImpl

/-- The tables of a database lie on the disk as `views`. -/
def Views (db : DBImpl) (views : List TableView) : Prop :=
  List.Forall₂ (fun (t : Table) (v : TableView) => Serves t v.blocks v.intact) db.tables views

theorem getFrom_eq {k : Bytes} {tables : List Table} {views : List TableView}
    (h : List.Forall₂ (fun (t : Table) (v : TableView) => Serves t v.blocks v.intact) tables views) :
    getFrom k tables = pure (answer k (newestReadable k views)) := by
  induction h with
  | nil => rfl
  | @cons t v tables views hserves _ ih =>
      have hget : t.get k = pure (if v.Answers k then resultOf (firstFor k v.entries) else .kNotFound) :=
        hserves.get_eq k
      rw [getFrom, hget, pure_bind, newestReadable_cons]
      by_cases ha : v.Answers k
      · rw [if_pos ha, if_pos ha]
        cases hfirst : firstFor k v.entries with
        | none =>
            simp only [resultOf, Option.none_or, ih]
        | some e =>
            rcases result_cases e with ⟨value, hr, hv⟩ | ⟨hr, hv⟩
            · simp only [resultOf, hr, Option.some_or, answer, hv]
            · simp only [resultOf, hr, Option.some_or, answer, hv]
      · rw [if_neg ha, if_neg ha]
        exact ih

/-- **`Get` returns what the newest entry it can read says.** -/
theorem get_eq {db : DBImpl} {views : List TableView} (h : db.Views views) (k : Bytes) :
    db.get k = pure (answer k ((firstFor k db.mem.table).or (newestReadable k views))) := by
  rw [get, MemTable.get_eq]
  cases hfirst : firstFor k db.mem.table with
  | none =>
      simp only [resultOf, Option.none_or]
      exact getFrom_eq h
  | some e =>
      rcases result_cases e with ⟨value, hr, hv⟩ | ⟨hr, hv⟩
      · simp only [resultOf, hr, Option.some_or, answer, hv]
      · simp only [resultOf, hr, Option.some_or, answer, hv]

/-- The layers of a database. -/
def layers (db : DBImpl) (views : List TableView) : List (List Entry) :=
  db.mem.table :: views.map TableView.entries

theorem valueOf_layers_iff (db : DBImpl) (views : List TableView) (k : Bytes) :
    valueOf ((firstFor k db.mem.table).or (newestReadable k views)) =
        valueOf (newest k (db.layers views)) ↔
      firstFor k db.mem.table ≠ none ∨ Faithful k views := by
  rw [layers, newest_cons]
  cases hfirst : firstFor k db.mem.table with
  | none => simpa using valueOf_newestReadable_iff k views
  | some e => simp

end DBImpl

/-! ### Blocks that cannot be read -/

open DBImpl

/-- **Reading with damaged data blocks.**  `Get` gives a value only if it is the one the newest stored
entry gives, and NotFound only if that entry gives none, exactly when the memtable stores the key or
the newest table that stores it answers, or is without consequence. -/
theorem get_damaged_iff (db : DBImpl) (views : List TableView) (h : db.Views views) (k : Bytes) :
    ∃ r, db.get k = pure r ∧
      (((∀ v, r = .ok v → valueOf (newest k (db.layers views)) = some v) ∧
          (r = .error (Status.notFound k) → valueOf (newest k (db.layers views)) = none)) ↔
        firstFor k db.mem.table ≠ none ∨ Faithful k views) := by
  refine ⟨_, get_eq h k, ?_⟩
  rw [← valueOf_layers_iff, answer_eq_error_iff]
  simp only [answer_eq_ok_iff]
  generalize valueOf ((firstFor k db.mem.table).or (newestReadable k views)) = read
  generalize valueOf (newest k (db.layers views)) = stored
  constructor
  · rintro ⟨hvalue, hnone⟩
    cases read with
    | none => exact (hnone rfl).symm
    | some v => exact (hvalue v rfl).symm
  · rintro rfl
    exact ⟨fun _ h => h, fun h => h⟩

/-- A table of `es` whose index block was read before its file became unreadable. -/
def unreadable (es : List Entry) : Table :=
  ⟨⟨0, fun _ _ => []⟩, blockOf (indexEntries 0 (dataBlocks es))⟩

theorem serves_unreadable {es : List Entry} (hfit : BlocksFit es) (hord : Ordered es) :
    Serves (unreadable es) (dataBlocks es) fun _ => false := by
  refine ⟨fun b hb => ne_nil_of_mem_cutBlocks hb, (dataBlocks_flatten es).symm ▸ hord, hfit.1,
    indexEntries 0 (dataBlocks es), rfl, hfit.2, indexEntries_keys 0 _, ?_⟩
  intro i e b he hb
  obtain ⟨hoff, hdecode⟩ := hfit.decode_index he hb
  have hsize := hfit.1 b (List.mem_of_getElem? hb)
  have hmax := add_trailer_le hsize
  have hlen : ((blockContents b).length + kBlockTrailerSize) % 2 ^ 64 =
      (blockContents b).length + kBlockTrailerSize := Nat.mod_eq_of_lt (lt_of_le_maxStringSize hmax)
  have hread : readBlock (unreadable es).file
      ⟨(dataBytes ((dataBlocks es).take i)).length, (blockContents b).length⟩ =
        .ok (.error (Status.ioError (ascii "while reading block"))) := by
    simp only [readBlock, hlen]
    rw [if_neg (by omega), if_neg hmax.not_gt,
      if_pos (by simp [unreadable, kBlockTrailerSize])]
  rw [Table.dataBlock, hdecode]
  simp only [hread]
  rfl

/-- The entries of a table with one value. -/
def oneEntry : List Entry := [entryOf 1 .kTypeValue [1] [9]]

/-- A database whose only table stores a value and cannot be read. -/
def damaged : DBImpl := { DBImpl.new (ascii "db") with tables := [unreadable oneEntry] }

def damagedViews : List TableView := [⟨dataBlocks oneEntry, fun _ => false⟩]

theorem damaged_views : damaged.Views damagedViews := by
  refine List.Forall₂.cons (serves_unreadable (blocksFit_of_footprint (by decide)) ⟨?_, ?_⟩) .nil
  · exact List.pairwise_singleton _ _
  · simp [oneEntry, entryOf]

theorem valueOf_damaged : valueOf (newest [1] (damaged.layers damagedViews)) = some [9] := by
  rw [layers, damagedViews, List.map_cons, TableView.entries, dataBlocks_flatten]
  decide

/-- The value is not there to be read. -/
theorem get_damaged_iff_unreadable :
    ∃ r, damaged.get [1] = pure r ∧
      (((∀ v, r = .ok v → valueOf (newest [1] (damaged.layers damagedViews)) = some v) ∧
          (r = .error (Status.notFound [1]) → valueOf (newest [1] (damaged.layers damagedViews)) = none)) ↔
        firstFor [1] damaged.mem.table ≠ none ∨ Faithful [1] damagedViews) :=
  get_damaged_iff damaged damagedViews damaged_views [1]

/-- **A failed read passes for an absent key**: `Get` answers NotFound although the newest entry of the
key is a value. -/
theorem failed_read_hides_value :
    ¬ ∀ (db : DBImpl) (views : List TableView) (k : Bytes) (r : Except Status Bytes),
      db.Views views → db.get k = pure r →
      (∀ v, r = .ok v → valueOf (newest k (db.layers views)) = some v) ∧
        (r = .error (Status.notFound k) → valueOf (newest k (db.layers views)) = none) := by
  intro h
  have hget := get_eq damaged_views [1]
  have hnone : (firstFor [1] damaged.mem.table).or (newestReadable [1] damagedViews) = none := by
    rw [damagedViews, newestReadable_cons, if_neg fun h => Bool.false_ne_true h.2]
    rfl
  rw [hnone, answer_none] at hget
  have := (h damaged damagedViews [1] _ damaged_views hget).2 rfl
  rw [valueOf_damaged] at this
  cases this

end MiniLevelDB
