import MiniLevelDB.LastSeq

/-! # The layers of a database

What a database stores, without its files: the calls in each table and those in the log.  A write adds a
call to the log; a flush makes a table of the log's calls and empties the log, and in between the calls
are in both.  `find` looks a key up through the layers.  None of the moves but a write of the key changes
what it finds (`find_write`, `find_tabled`, `find_flushed`). -/

namespace MiniLevelDB

/-! ### The last call for a key -/

/-- The last of the calls for the key. -/
def lastCall (k : Bytes) (calls : List (ℕ × WriteOp)) : Option (ℕ × WriteOp) :=
  calls.reverse.find? fun c => c.2.key = k

/-- The last of the operations on the key. -/
def lastOp (k : Bytes) (ops : List WriteOp) : Option WriteOp := ops.reverse.find? fun op => op.key = k

@[simp] theorem lastCall_nil (k : Bytes) : lastCall k [] = none := rfl

@[simp] theorem lastOp_nil (k : Bytes) : lastOp k [] = none := rfl

theorem lastCall_concat (k : Bytes) (calls : List (ℕ × WriteOp)) (c : ℕ × WriteOp) :
    lastCall k (calls ++ [c]) = if c.2.key = k then some c else lastCall k calls := by
  rw [lastCall, List.reverse_concat, List.find?_cons]
  by_cases h : c.2.key = k
  · rw [if_pos h, decide_eq_true h]
  · rw [if_neg h, decide_eq_false h, lastCall]

theorem lastOp_concat (k : Bytes) (ops : List WriteOp) (op : WriteOp) :
    lastOp k (ops ++ [op]) = if op.key = k then some op else lastOp k ops := by
  rw [lastOp, List.reverse_concat, List.find?_cons]
  by_cases h : op.key = k
  · rw [if_pos h, decide_eq_true h]
  · rw [if_neg h, decide_eq_false h, lastOp]

theorem lastOp_key {k : Bytes} {ops : List WriteOp} {op : WriteOp} (h : lastOp k ops = some op) :
    op.key = k := by
  have hfound := List.find?_some h
  exact of_decide_eq_true hfound

/-! ### Calls in a memtable -/

/-- The memtable with the calls. -/
def memOf (calls : List (ℕ × WriteOp)) : MemTable := MemTable.empty.insertAll calls

theorem memOf_concat (calls : List (ℕ × WriteOp)) (c : ℕ × WriteOp) :
    memOf (calls ++ [c]) = (memOf calls).insertAll [c] := List.foldl_append

@[simp] theorem memOf_nil : memOf [] = MemTable.empty := rfl

theorem mem_memOf {calls : List (ℕ × WriteOp)} {e : Entry} :
    e ∈ (memOf calls).table ↔ ∃ c ∈ calls, e = callEntry c := by
  rw [memOf, mem_insertAll, MemTable.table_empty]
  simp

/-- The sequence numbers ascend, and are numbers of 64 bits. -/
structure Ascending (calls : List (ℕ × WriteOp)) : Prop where
  pairwise : calls.Pairwise fun c d => c.1 < d.1
  lt : ∀ c ∈ calls, c.1 < 2 ^ 64

theorem Ascending.nil : Ascending [] := ⟨.nil, fun _ h => by cases h⟩

theorem Ascending.left {calls calls' : List (ℕ × WriteOp)} (h : Ascending (calls ++ calls')) :
    Ascending calls :=
  ⟨(List.pairwise_append.mp h.pairwise).1, fun c hc => h.lt c (List.mem_append_left _ hc)⟩

theorem Ascending.concat {calls : List (ℕ × WriteOp)} (h : Ascending calls) {c : ℕ × WriteOp}
    (hlt : c.1 < 2 ^ 64) (hnew : ∀ d ∈ calls, d.1 < c.1) : Ascending (calls ++ [c]) := by
  constructor
  · rw [List.pairwise_append]
    refine ⟨h.pairwise, List.pairwise_singleton _ _, ?_⟩
    intro d hd c' hc'
    obtain rfl := List.mem_singleton.mp hc'
    exact hnew d hd
  · intro d hd
    rcases List.mem_append.mp hd with hd | hd
    · exact h.lt d hd
    · obtain rfl := List.mem_singleton.mp hd
      exact hlt

/-- The entry of a key that comes first is that of the last call for it, where the entries keep the
sequence numbers whole. -/
theorem firstFor_memOf {calls : List (ℕ × WriteOp)} (h : Ascending calls)
    (hlt : ∀ c ∈ calls, c.1 < 2 ^ 56) (k : Bytes) :
    firstFor k (memOf calls).table = (lastCall k calls).map callEntry := by
  induction calls using List.reverseRecOn with
  | nil => rfl
  | append_singleton calls c ih =>
      have hlast : ∀ d ∈ calls, d.1 < c.1 := fun d hd =>
        (List.pairwise_append.mp h.pairwise).2.2 d hd c (List.mem_singleton.mpr rfl)
      have hc := hlt c (List.mem_append_right _ (List.mem_singleton.mpr rfl))
      have hnew : ∀ e ∈ (memOf calls).table, e.userKey = (callEntry c).userKey →
          extractTag e.1 ≤ extractTag (callEntry c).1 := by
        intro e he _
        obtain ⟨d, hd, rfl⟩ := mem_memOf.mp he
        have hdc := hlast d hd
        have hd' : (callEntry d).seq = d.1 := callEntry_seq (hdc.trans hc)
        have hc' : (callEntry c).seq = c.1 := callEntry_seq hc
        rw [Entry.seq, Nat.shiftRight_eq_div_pow] at hd' hc'
        omega
      have htable : (memOf (calls ++ [c])).table = MemTable.insert (callEntry c) (memOf calls).table := by
        rw [memOf_concat]
        rfl
      rw [htable, firstFor_insert hnew, callEntry_userKey, lastCall_concat,
        ih h.left fun d hd => hlt d (List.mem_append_left _ hd)]
      split_ifs
      · rfl
      · rfl

/-! ### Layers -/

/-- The calls in the tables, the oldest first, and those in the log. -/
structure Layers where
  tables : List (List (ℕ × WriteOp))
  current : List (ℕ × WriteOp)

namespace Layers

def empty : Layers := ⟨[], []⟩

/-- A write with the sequence number `seq`. -/
def write (L : Layers) (seq : ℕ) (op : WriteOp) : Layers := ⟨L.tables, L.current ++ [(seq, op)]⟩

/-- The calls in the log are in a table too. -/
def tabled (L : Layers) : Layers := ⟨L.tables ++ [L.current], L.current⟩

/-- The calls in the log have become a table. -/
def flushed (L : Layers) : Layers := ⟨L.tables ++ [L.current], []⟩

/-- What a flush may leave. -/
inductive Flushes (L : Layers) : Layers → Prop
  | before : Flushes L L
  | tabled : Flushes L L.tabled
  | flushed : Flushes L L.flushed

/-- All layers, in the order of a lookup. -/
def newestFirst (L : Layers) : List (List (ℕ × WriteOp)) := L.current :: L.tables.reverse

/-- The last call for the key in the first layer that has one. -/
def find (L : Layers) (k : Bytes) : Option (ℕ × WriteOp) := L.newestFirst.findSome? (lastCall k)

theorem find_eq (L : Layers) (k : Bytes) :
    L.find k = (lastCall k L.current).or (L.tables.reverse.findSome? (lastCall k)) := by
  rw [find, newestFirst, List.findSome?_cons]
  cases lastCall k L.current <;> rfl

@[simp] theorem find_empty (k : Bytes) : empty.find k = none := rfl

theorem find_write (L : Layers) (seq : ℕ) (op : WriteOp) (k : Bytes) :
    (L.write seq op).find k = if op.key = k then some (seq, op) else L.find k := by
  rw [find_eq, write, lastCall_concat, find_eq]
  split_ifs
  · rfl
  · rfl

@[simp] theorem find_flushed (L : Layers) (k : Bytes) : L.flushed.find k = L.find k := by
  rw [find_eq, flushed, List.reverse_concat, List.findSome?_cons, lastCall_nil, Option.none_or, find_eq]
  cases lastCall k L.current <;> rfl

/-- A table of the calls that are also in the log does not count. -/
@[simp] theorem find_tabled (L : Layers) (k : Bytes) : L.tabled.find k = L.find k := by
  rw [find_eq, tabled, List.reverse_concat, List.findSome?_cons, find_eq]
  cases lastCall k L.current <;> rfl

theorem Flushes.find_eq {L L' : Layers} (h : L.Flushes L') (k : Bytes) : L'.find k = L.find k := by
  cases h with
  | before => rfl
  | tabled => exact L.find_tabled k
  | flushed => exact L.find_flushed k

/-- The layers hold what the operations have made of each key. -/
def Resolves (L : Layers) (ops : List WriteOp) : Prop := ∀ k, (L.find k).map Prod.snd = lastOp k ops

theorem Resolves.empty : empty.Resolves [] := fun _ => rfl

theorem Resolves.write {L : Layers} {ops : List WriteOp} (h : L.Resolves ops) (seq : ℕ) (op : WriteOp) :
    (L.write seq op).Resolves (ops ++ [op]) := by
  intro k
  rw [find_write, lastOp_concat, ← h k]
  split_ifs
  · rfl
  · rfl

theorem Resolves.flushes {L L' : Layers} {ops : List WriteOp} (h : L.Resolves ops) (hL : L.Flushes L') :
    L'.Resolves ops := by
  intro k
  rw [hL.find_eq]
  exact h k

/-- In every layer the sequence numbers ascend, and the lengths fit the encoding. -/
structure WellFormed (L : Layers) : Prop where
  ascending : ∀ calls ∈ L.newestFirst, Ascending calls
  fits : ∀ calls ∈ L.newestFirst, ∀ c ∈ calls, c.2.Fits

theorem WellFormed.empty : empty.WellFormed := by
  constructor
  · intro calls h
    obtain rfl := List.mem_singleton.mp h
    exact Ascending.nil
  · intro calls h c hc
    obtain rfl := List.mem_singleton.mp h
    cases hc

theorem mem_newestFirst {L : Layers} {calls : List (ℕ × WriteOp)} :
    calls ∈ L.newestFirst ↔ calls = L.current ∨ calls ∈ L.tables := by
  rw [newestFirst, List.mem_cons, List.mem_reverse]

theorem WellFormed.write {L : Layers} {seq : ℕ} {op : WriteOp} (h : L.WellFormed) (hfits : op.Fits)
    (hlt : seq < 2 ^ 64) (hnew : ∀ c ∈ L.current, c.1 < seq) : (L.write seq op).WellFormed := by
  constructor
  · intro calls hcalls
    rcases mem_newestFirst.mp hcalls with rfl | hcalls
    · exact (h.ascending _ (mem_newestFirst.mpr (Or.inl rfl))).concat hlt hnew
    · exact h.ascending _ (mem_newestFirst.mpr (Or.inr hcalls))
  · intro calls hcalls c hc
    rcases mem_newestFirst.mp hcalls with rfl | hcalls
    · rcases List.mem_append.mp hc with hc | hc
      · exact h.fits _ (mem_newestFirst.mpr (Or.inl rfl)) c hc
      · obtain rfl := List.mem_singleton.mp hc
        exact hfits
    · exact h.fits _ (mem_newestFirst.mpr (Or.inr hcalls)) c hc

/-- A flush makes no new layer of calls. -/
theorem Flushes.subset {L L' : Layers} (h : L.Flushes L') {calls : List (ℕ × WriteOp)}
    (hcalls : calls ∈ L'.newestFirst) : calls ∈ L.newestFirst ∨ calls = [] := by
  cases h with
  | before => exact Or.inl hcalls
  | tabled =>
      rcases mem_newestFirst.mp hcalls with rfl | hcalls
      · exact Or.inl (mem_newestFirst.mpr (Or.inl rfl))
      · rcases List.mem_append.mp hcalls with hcalls | hcalls
        · exact Or.inl (mem_newestFirst.mpr (Or.inr hcalls))
        · exact Or.inl (mem_newestFirst.mpr (Or.inl (List.mem_singleton.mp hcalls)))
  | flushed =>
      rcases mem_newestFirst.mp hcalls with rfl | hcalls
      · exact Or.inr rfl
      · rcases List.mem_append.mp hcalls with hcalls | hcalls
        · exact Or.inl (mem_newestFirst.mpr (Or.inr hcalls))
        · exact Or.inl (mem_newestFirst.mpr (Or.inl (List.mem_singleton.mp hcalls)))

theorem WellFormed.flushes {L L' : Layers} (h : L.WellFormed) (hL : L.Flushes L') : L'.WellFormed := by
  constructor
  · intro calls hcalls
    rcases hL.subset hcalls with hcalls | rfl
    · exact h.ascending _ hcalls
    · exact Ascending.nil
  · intro calls hcalls c hc
    rcases hL.subset hcalls with hcalls | rfl
    · exact h.fits _ hcalls c hc
    · cases hc

end Layers

end MiniLevelDB
