import Mathlib.Data.List.Sort
import Mathlib.Data.List.TakeWhile
import MiniLevelDB.Lib.Chain

/-! # The skip list

`db/skiplist.h` for any key type and comparator.  A node is an address; `key` and `next` read it,
`head_` is the node `0`, and a node keeps successors on `kMaxHeight` levels.  Tower heights are an
argument of `insert`.

`Levels` says what a skip list looks like in memory: a chain from the head on each level, each a
sublist of the one below, and the bottom one sorted.  `findGreaterOrEqual_spec` and
`insert_represents` give the two operations over the list of keys on the bottom level. -/

namespace MiniLevelDB

open Linked

def kMaxHeight : ℕ := 12

/-- What `RandomHeight` returns. -/
abbrev TowerHeight := { h : ℕ // 1 ≤ h ∧ h ≤ kMaxHeight }

/-- `SkipList`. -/
structure SkipList (K : Type) where
  /-- the number of nodes allocated -/
  size : ℕ
  key : ℕ → K
  next : ℕ → ℕ → Option ℕ
  cur_height : ℕ

namespace SkipList

variable {K : Type}

/-- `head_`. -/
def head : ℕ := 0

/-- `SkipList()`: the head with no successors. -/
def empty [Inhabited K] : SkipList K := ⟨1, fun _ => default, fun _ _ => none, 1⟩

/-- `NewNode`: the list with the node, whose address is the old `size`. -/
def newNode (s : SkipList K) (k : K) : SkipList K :=
  { s with
    size := s.size + 1
    key := Function.update s.key s.size k
    next := Function.update s.next s.size fun _ => none }

/-- `x->next_[level].store(y)`. -/
def store (s : SkipList K) (x level : ℕ) (y : Option ℕ) : SkipList K :=
  { s with next := Function.update s.next x (Function.update (s.next x) level y) }

/-- The loop of `FindGreaterOrEqual`: the node found and `prev`.  `fuel` bounds the iterations. -/
def findLoop (less : K → K → Bool) (s : SkipList K) (key : K) :
    ℕ → (level x : ℕ) → (prev : ℕ → ℕ) → Option (Option ℕ × (ℕ → ℕ))
  | 0, _, _, _ => none
  | fuel + 1, level, x, prev =>
      let next := s.next x level
      match next.filter fun n => less (s.key n) key with
      | some n => findLoop less s key fuel level n prev
      | none =>
          let prev := Function.update prev level x
          match level with
          | 0 => some (next, prev)
          | level + 1 => findLoop less s key fuel level x prev

/-- `FindGreaterOrEqual`. -/
def findGreaterOrEqual (less : K → K → Bool) (s : SkipList K) (key : K) :
    Option (Option ℕ × (ℕ → ℕ)) :=
  findLoop less s key (s.cur_height * s.size) (s.cur_height - 1) head fun _ => head

/-- The two loops that link the node `n` in behind `prev`, on the levels below `h`. -/
def linkNode (s : SkipList K) (n : ℕ) (prev : ℕ → ℕ) (h : ℕ) : SkipList K :=
  let s := (List.range h).foldl (fun s i => s.store n i (s.next (prev i) i)) s
  (List.range h).foldl (fun s i => s.store (prev i) i (some n)) s

/-- `Insert`, for a tower of height `h`. -/
def insert (less : K → K → Bool) (s : SkipList K) (key : K) (h : ℕ) : Option (SkipList K) :=
  (s.findGreaterOrEqual less key).map fun (_, prev) =>
    -- above the height in use the new node follows the head
    let prev := fun i => if s.cur_height ≤ i ∧ i < h then head else prev i
    let cur_height := if h > s.cur_height then h else s.cur_height
    (newNode { s with cur_height := cur_height } key).linkNode s.size prev h

/-! ### Iterator -/

/-- `Iterator::Seek`: the node the iterator is at. -/
def seek (less : K → K → Bool) (s : SkipList K) (target : K) : Option (Option ℕ) :=
  (s.findGreaterOrEqual less target).map Prod.fst

/-- The keys from a node on by `Next`, up to where the iterator is not valid. -/
def keysFrom (s : SkipList K) : (fuel : ℕ) → (node : Option ℕ) → Option (List K)
  | _, none => some []
  | 0, some _ => none
  | fuel + 1, some n => (s.keysFrom fuel (s.next n 0)).map (s.key n :: ·)

/-- `SeekToFirst` and `Next` until the iterator is not valid. -/
def toList (s : SkipList K) : Option (List K) := s.keysFrom s.size (s.next head 0)

/-! ### What a skip list looks like -/

/-- The order of the keys: not the other way round. -/
abbrev KeyLe (less : K → K → Bool) (a b : K) : Prop := less b a = false

/-- `levels l` are the nodes on level `l` behind the head, in order. -/
structure Levels (less : K → K → Bool) (s : SkipList K) (levels : ℕ → List ℕ) : Prop where
  chain : ∀ l, Chain (fun x => s.next x l) head (levels l)
  sublist : ∀ l, (levels (l + 1)).Sublist (levels l)
  nodup : (head :: levels 0).Nodup
  lt_size : ∀ x ∈ head :: levels 0, x < s.size
  sorted : (levels 0).Pairwise fun a b => KeyLe less (s.key a) (s.key b)
  above : ∀ l, s.cur_height ≤ l → levels l = []
  height : 1 ≤ s.cur_height ∧ s.cur_height ≤ kMaxHeight

/-- The keys of a skip list, in order. -/
def Represents (less : K → K → Bool) (s : SkipList K) (keys : List K) : Prop :=
  ∃ levels, Levels less s levels ∧ (levels 0).map s.key = keys

variable {less : K → K → Bool} {s : SkipList K} {levels : ℕ → List ℕ}

theorem Levels.sublist_bottom (h : Levels less s levels) (l : ℕ) : (levels l).Sublist (levels 0) := by
  induction l with
  | zero => exact List.Sublist.refl _
  | succ l ih => exact (h.sublist l).trans ih

theorem Levels.level_sorted (h : Levels less s levels) (l : ℕ) :
    (levels l).Pairwise fun a b => KeyLe less (s.key a) (s.key b) :=
  h.sorted.sublist (h.sublist_bottom l)

theorem Levels.level_nodup (h : Levels less s levels) (l : ℕ) : (head :: levels l).Nodup :=
  h.nodup.sublist ((h.sublist_bottom l).cons_cons head)

/-- Every level has fewer nodes than are allocated: the head is on none. -/
theorem Levels.length_lt (h : Levels less s levels) (l : ℕ) : (levels l).length < s.size := by
  have hcard : (head :: levels 0).length ≤ s.size := by
    have hsub : head :: levels 0 ⊆ List.range s.size :=
      fun x hx => List.mem_range.mpr (h.lt_size x hx)
    simpa using (h.nodup.subperm hsub).length_le
  have := (h.sublist_bottom l).length_le
  rw [List.length_cons] at hcard
  omega

theorem empty_levels [Inhabited K] : Levels less (empty : SkipList K) fun _ => [] where
  chain _ := rfl
  sublist _ := List.Sublist.refl _
  nodup := by simp
  lt_size := by simp [head, empty]
  sorted := List.Pairwise.nil
  above _ _ := rfl
  height := ⟨le_refl 1, Nat.le_of_ble_eq_true rfl⟩

/-! ### Searching -/

/-- The nodes whose key is less than the one searched for. -/
abbrev below (less : K → K → Bool) (s : SkipList K) (key : K) (x : ℕ) : Bool := less (s.key x) key

variable [IsTrans K (KeyLe less)]

theorem less_of_keyLe {a b k : K} (h : KeyLe less a b) (hb : less b k = true) : less a k = true := by
  by_contra ha
  have hka : KeyLe less k a := by simpa using ha
  have hkb : KeyLe less k b := IsTrans.trans _ _ _ hka h
  exact absurd (hb.symm.trans hkb) (by simp)

/-- The way down: a node passed on one level has all nodes before it on the next level below the
key as well. -/
theorem Levels.descend (h : Levels less s levels) {l : ℕ} {pre suf : List ℕ} {key : K}
    (hl : levels (l + 1) = pre ++ suf) (hpre : ∀ x ∈ pre, below less s key x) :
    ∃ pre' suf', levels l = pre' ++ suf' ∧ (∀ x ∈ pre', below less s key x) ∧
      pre'.getLastD head = pre.getLastD head := by
  rcases List.eq_nil_or_concat pre with rfl | ⟨init, x, rfl⟩
  · exact ⟨[], levels l, rfl, by simp, rfl⟩
  · have hx : x ∈ levels l := by
      apply (h.sublist l).subset
      rw [hl]
      simp
    obtain ⟨a, b, hab⟩ := List.append_of_mem hx
    have hlast := hpre x (by simp)
    refine ⟨a ++ [x], b, by simp [hab], ?_, by rw [List.getLastD_concat, List.concat_eq_append, List.getLastD_concat]⟩
    intro y hy
    rcases List.mem_append.mp hy with hy | hy
    · have hsorted := h.level_sorted l
      rw [hab] at hsorted
      exact less_of_keyLe ((List.pairwise_append.mp hsorted).2.2 y hy x List.mem_cons_self) hlast
    · rw [List.mem_singleton.mp hy]
      exact hlast

omit [IsTrans K (KeyLe less)] in
/-- Where the nodes below the key end. -/
theorem split_at_key {key : K} {L pre suf : List ℕ} (hL : L = pre ++ suf)
    (hpre : ∀ x ∈ pre, below less s key x) (hsuf : suf.head?.filter (below less s key) = none) :
    L.takeWhile (below less s key) = pre ∧ L.dropWhile (below less s key) = suf := by
  rw [hL, List.takeWhile_append_of_pos hpre, List.dropWhile_append_of_pos hpre]
  cases suf with
  | nil => simp
  | cons y suf =>
      have hy : below less s key y = false := by simpa [Option.filter] using hsuf
      simp [hy]

/-- From a node all of whose predecessors are below the key, the search ends at the first node not
below it, with the last node below it in `prev` on every level it passes. -/
theorem findLoop_spec (h : Levels less s levels) (key : K) (fuel level : ℕ) (pre suf : List ℕ)
    (prev : ℕ → ℕ) (hl : levels level = pre ++ suf) (hpre : ∀ x ∈ pre, below less s key x)
    (hfuel : level * s.size + suf.length < fuel) :
    ∃ prev', findLoop less s key fuel level (pre.getLastD head) prev =
        some (((levels 0).dropWhile (below less s key)).head?, prev') ∧
      (∀ l ≤ level, prev' l = ((levels l).takeWhile (below less s key)).getLastD head) ∧
      ∀ l, level < l → prev' l = prev l := by
  induction fuel generalizing level pre suf prev with
  | zero => omega
  | succ fuel ih =>
      have hnext : s.next (pre.getLastD head) level = suf.head? := by
        have hchain := h.chain level
        rw [hl] at hchain
        exact hchain.next_getLastD
      rw [findLoop, hnext]
      cases hadv : suf.head?.filter fun n => less (s.key n) key with
      | some y =>
          obtain ⟨suf', rfl, hy⟩ : ∃ suf', suf = y :: suf' ∧ less (s.key y) key = true := by
            cases suf with
            | nil => cases hadv
            | cons z suf' =>
                rw [List.head?_cons, Option.filter_eq_some_iff] at hadv
                obtain ⟨hz, hy⟩ := hadv
                obtain rfl := Option.some.inj hz
                exact ⟨suf', rfl, hy⟩
          have := ih level (pre ++ [y]) suf' prev (by simp [hl])
            (by
              intro x hx
              rcases List.mem_append.mp hx with hx | hx
              · exact hpre x hx
              · rw [List.mem_singleton.mp hx]
                exact hy)
            (by rw [List.length_cons] at hfuel; omega)
          rwa [List.getLastD_concat] at this
      | none =>
          obtain ⟨htake, hdrop⟩ := split_at_key hl hpre hadv
          cases level with
          | zero =>
              refine ⟨Function.update prev 0 (pre.getLastD head), by simp only [hdrop], ?_, ?_⟩
              · intro l hl0
                obtain rfl := Nat.le_zero.mp hl0
                rw [Function.update_self, htake]
              · intro l hl0
                rw [Function.update_of_ne (by omega)]
          | succ level =>
              obtain ⟨pre', suf', hl', hpre', hlast⟩ := h.descend hl hpre
              have hlen := h.length_lt level
              rw [hl', List.length_append] at hlen
              have hmul : (level + 1) * s.size = level * s.size + s.size := Nat.succ_mul _ _
              obtain ⟨prev', hrun, hle, hgt⟩ := ih level pre' suf'
                (Function.update prev (level + 1) (pre.getLastD head)) hl' hpre' (by omega)
              rw [hlast] at hrun
              refine ⟨prev', hrun, ?_, ?_⟩
              · intro l hlev
                rcases Nat.lt_or_ge level l with hgt' | hle'
                · obtain rfl : l = level + 1 := by omega
                  rw [hgt _ hgt', Function.update_self, htake]
                · exact hle l hle'
              · intro l hlev
                rw [hgt l (by omega), Function.update_of_ne (by omega)]

/-- `FindGreaterOrEqual` finds the first node not below the key; `prev` has the last node below it
on every level in use. -/
theorem findGreaterOrEqual_spec (h : Levels less s levels) (key : K) :
    ∃ prev, s.findGreaterOrEqual less key =
        some (((levels 0).dropWhile (below less s key)).head?, prev) ∧
      ∀ l < s.cur_height, prev l = ((levels l).takeWhile (below less s key)).getLastD head := by
  obtain ⟨hpos, -⟩ := h.height
  have hfuel : (s.cur_height - 1) * s.size + (levels (s.cur_height - 1)).length <
      s.cur_height * s.size := by
    have hlen := h.length_lt (s.cur_height - 1)
    have hmul := Nat.succ_mul (s.cur_height - 1) s.size
    rw [Nat.succ_eq_add_one, Nat.sub_add_cancel hpos] at hmul
    omega
  obtain ⟨prev, hrun, hle, -⟩ := findLoop_spec h key (s.cur_height * s.size) (s.cur_height - 1) []
    (levels (s.cur_height - 1)) (fun _ => head) rfl (by simp) hfuel
  exact ⟨prev, hrun, fun l hl => hle l (by omega)⟩

/-! ### Inserting -/

omit [IsTrans K (KeyLe less)] in
theorem store_next (s : SkipList K) (x level : ℕ) (y : Option ℕ) (a l : ℕ) :
    (s.store x level y).next a l = if a = x ∧ l = level then y else s.next a l := by
  by_cases ha : a = x
  · subst ha
    by_cases hl : l = level <;> simp [store, hl]
  · simp [store, ha]

omit [IsTrans K (KeyLe less)] in
/-- Stores at one place on each level below `h`, none of which reads what another wrote. -/
theorem foldl_store_next (s : SkipList K) (place : ℕ → ℕ) (value : SkipList K → ℕ → Option ℕ) (h : ℕ)
    (hvalue : ∀ t : SkipList K, ∀ i < h, (∀ a l, a ≠ place l → t.next a l = s.next a l) →
      value t i = value s i) :
    let t := (List.range h).foldl (fun s i => s.store (place i) i (value s i)) s
    (∀ a l, t.next a l = if l < h ∧ a = place l then value s l else s.next a l) ∧
      t.size = s.size ∧ t.key = s.key ∧ t.cur_height = s.cur_height := by
  induction h with
  | zero => simp
  | succ h ih =>
      obtain ⟨hnext, hsize, hkey, hheight⟩ := ih fun t i hi => hvalue t i (hi.trans h.lt_succ_self)
      rw [List.range_succ, List.foldl_append]
      refine ⟨fun a l => ?_, hsize, hkey, hheight⟩
      rw [List.foldl_cons, List.foldl_nil, store_next, hnext, hvalue _ h h.lt_succ_self fun a l hne => by
          rw [hnext, if_neg fun e => hne e.2]]
      by_cases hl : l = h
      · subst hl
        simp
      · have hiff : l < h + 1 ↔ l < h := by omega
        simp [hl, hiff]

omit [IsTrans K (KeyLe less)] in
/-- Linking a node in changes the successors of the node and of `prev`. -/
theorem linkNode_spec (s : SkipList K) (n : ℕ) (prev : ℕ → ℕ) (h : ℕ)
    (hn : ∀ l < h, prev l ≠ n) :
    (∀ a l, (s.linkNode n prev h).next a l =
      if l < h ∧ a = prev l then some n else if l < h ∧ a = n then s.next (prev l) l
        else s.next a l) ∧
      (s.linkNode n prev h).size = s.size ∧ (s.linkNode n prev h).key = s.key ∧
        (s.linkNode n prev h).cur_height = s.cur_height := by
  obtain ⟨hnext₁, hsize₁, hkey₁, hheight₁⟩ := foldl_store_next s (fun _ => n)
    (fun s i => s.next (prev i) i) h (fun t i hi heq => heq (prev i) i (hn i hi))
  obtain ⟨hnext₂, hsize₂, hkey₂, hheight₂⟩ := foldl_store_next
    ((List.range h).foldl (fun s i => s.store n i (s.next (prev i) i)) s) prev
    (fun _ _ => some n) h (fun _ _ _ _ => rfl)
  refine ⟨fun a l => ?_, hsize₂.trans hsize₁, hkey₂.trans hkey₁, hheight₂.trans hheight₁⟩
  exact (hnext₂ a l).trans (by rw [hnext₁])

/-- The order of the nodes by their keys. -/
abbrev NodeLe (less : K → K → Bool) (key : ℕ → K) : ℕ → ℕ → Prop := Order.Preimage key (KeyLe less)

omit [IsTrans K (KeyLe less)] in
/-- On each level the new node stands behind the nodes below its key. -/
theorem orderedInsert_eq {key : ℕ → K} {n : ℕ} {L : List ℕ} (p : ℕ → Bool)
    (hp : ∀ x ∈ L, p x = less (key x) (key n)) :
    L.orderedInsert (NodeLe less key) n = L.takeWhile p ++ n :: L.dropWhile p := by
  induction L with
  | nil => rfl
  | cons x L ih =>
      have ih := ih fun y hy => hp y (List.mem_cons_of_mem _ hy)
      cases hx : less (key x) (key n) with
      | true =>
          have hle : ¬ NodeLe less key n x := by simp [Order.Preimage, hx]
          rw [List.orderedInsert_of_not_le _ _ hle, ih, List.takeWhile_cons, List.dropWhile_cons,
            hp x List.mem_cons_self, hx]
          rfl
      | false =>
          have hle : NodeLe less key n x := hx
          rw [List.orderedInsert_cons_of_le _ _ hle, List.takeWhile_cons, List.dropWhile_cons,
            hp x List.mem_cons_self, hx]
          rfl

/-- The levels after a node came with a tower of height `h`. -/
def insertLevels (less : K → K → Bool) (key : ℕ → K) (n h : ℕ) (levels : ℕ → List ℕ) (l : ℕ) : List ℕ :=
  if l < h then (levels l).orderedInsert (NodeLe less key) n else levels l

omit [IsTrans K (KeyLe less)] in
/-- The node in `prev` on each level of the new tower. -/
theorem Levels.prev_eq (hs : Levels less s levels) {key : K} {h : ℕ} {prev : ℕ → ℕ}
    (hprev : ∀ l < s.cur_height, prev l = ((levels l).takeWhile (below less s key)).getLastD head)
    {l : ℕ} (hl : l < h) :
    (if s.cur_height ≤ l ∧ l < h then head else prev l) =
      ((levels l).takeWhile (below less s key)).getLastD head := by
  by_cases hc : l < s.cur_height
  · rw [if_neg (by omega), hprev l hc]
  · rw [if_pos (by omega), hs.above l (by omega)]
    rfl

omit [IsTrans K (KeyLe less)] in
theorem newNode_next (s : SkipList K) (k : K) (a l : ℕ) :
    (s.newNode k).next a l = if a = s.size then none else s.next a l := by
  by_cases ha : a = s.size <;> simp [newNode, ha]

omit [IsTrans K (KeyLe less)] in
/-- The address of a new node is not in use. -/
theorem Levels.fresh (hs : Levels less s levels) (l : ℕ) : s.size ∉ head :: levels l := by
  intro hmem
  have hsub : head :: levels l ⊆ head :: levels 0 := ((hs.sublist_bottom l).cons_cons head).subset
  exact lt_irrefl _ (hs.lt_size _ (hsub hmem))

omit [IsTrans K (KeyLe less)] in
theorem Levels.key_update (hs : Levels less s levels) (key : K) {l x : ℕ} (hx : x ∈ levels l) :
    Function.update s.key s.size key x = s.key x := by
  refine Function.update_of_ne ?_ _ _
  rintro rfl
  exact hs.fresh l (List.mem_cons_of_mem _ hx)

omit [IsTrans K (KeyLe less)] in
/-- The nodes are still sorted by their keys when the new one has its key. -/
theorem Levels.sorted_update (hs : Levels less s levels) (key : K) (l : ℕ) :
    (levels l).Pairwise (NodeLe less (Function.update s.key s.size key)) := by
  refine (hs.level_sorted l).imp_of_mem fun {a b} ha hb hab => ?_
  change KeyLe less (Function.update s.key s.size key a) (Function.update s.key s.size key b)
  rw [hs.key_update key ha, hs.key_update key hb]
  exact hab

variable [Std.Total (KeyLe less)]

/-- `Insert` puts the new node on the levels of its tower and leaves the others. -/
theorem insert_levels (hs : Levels less s levels) (key : K) (h : TowerHeight) :
    ∃ s', s.insert less key h.1 = some s' ∧ s'.key = Function.update s.key s.size key ∧
      Levels less s' (insertLevels less s'.key s.size h.1 levels) := by
  obtain ⟨prev, hfind, hprev⟩ := findGreaterOrEqual_spec hs key
  obtain ⟨h, hpos, hmax⟩ := h
  dsimp only
  let prev' := fun i => if s.cur_height ≤ i ∧ i < h then head else prev i
  let t := newNode { s with cur_height := if h > s.cur_height then h else s.cur_height } key
  have hins : s.insert less key h = some (t.linkNode s.size prev' h) := by
    rw [SkipList.insert, hfind]
    rfl
  have htnext : ∀ a l, t.next a l = if a = s.size then none else s.next a l := newNode_next _ key
  have hprev' : ∀ l < h, prev' l = ((levels l).takeWhile (below less s key)).getLastD head :=
    fun l hl => hs.prev_eq hprev hl
  have hne : ∀ l < h, prev' l ≠ s.size := by
    intro l hl he
    apply hs.fresh l
    rw [← he, hprev' l hl]
    exact ((List.takeWhile_sublist _).cons_cons head).subset List.getLastD_mem_cons
  obtain ⟨hnext, hsize, hkey, hheight⟩ := linkNode_spec t s.size prev' h hne
  have hkey' : (t.linkNode s.size prev' h).key = Function.update s.key s.size key := hkey
  refine ⟨_, hins, hkey', ?_⟩
  rw [hkey']
  have hsplit : ∀ l, (levels l).orderedInsert (NodeLe less (Function.update s.key s.size key)) s.size =
      (levels l).takeWhile (below less s key) ++ s.size :: (levels l).dropWhile (below less s key) := by
    refine fun l => orderedInsert_eq _ fun x hx => ?_
    rw [hs.key_update key hx, Function.update_self]
  have hbottom : insertLevels less (Function.update s.key s.size key) s.size h levels 0 =
      (levels 0).orderedInsert (NodeLe less (Function.update s.key s.size key)) s.size := if_pos hpos
  have hperm := List.perm_orderedInsert (NodeLe less (Function.update s.key s.size key)) s.size (levels 0)
  refine ⟨?_, ?_, ?_, ?_, ?_, ?_, ?_⟩
  · intro l
    by_cases hl : l < h
    · have hchain := hs.chain l
      have hnodup := hs.level_nodup l
      have hfresh := hs.fresh l
      rw [← List.takeWhile_append_dropWhile (p := below less s key) (l := levels l)] at hchain hnodup hfresh
      rw [insertLevels, if_pos hl, hsplit]
      refine hchain.insertAfter hnodup hfresh ?_ ?_ ?_
      · rw [hnext, ← hprev' l hl, if_pos ⟨hl, rfl⟩]
      · rw [hnext, ← hprev' l hl, if_neg fun e => hne l hl e.2.symm, if_pos ⟨hl, rfl⟩, htnext,
          if_neg (hne l hl)]
      · intro y hy hyn
        rw [hnext, hprev' l hl, if_neg fun e => hy e.2, if_neg fun e => hyn e.2, htnext, if_neg hyn]
    · rw [insertLevels, if_neg hl]
      refine (hs.chain l).congr fun y hy => ?_
      have hyn : y ≠ s.size := fun e => hs.fresh l (e ▸ hy)
      rw [hnext, if_neg fun e => hl e.1, if_neg fun e => hl e.1, htnext, if_neg hyn]
  · intro l
    rcases Nat.lt_trichotomy (l + 1) h with hl | hl | hl
    · rw [insertLevels, insertLevels, if_pos hl, if_pos (by omega)]
      exact (hs.sublist l).orderedInsert_sublist _ (hs.sorted_update key l)
    · rw [insertLevels, insertLevels, if_neg (by omega), if_pos (by omega)]
      exact (hs.sublist l).trans (List.sublist_orderedInsert _ _)
    · rw [insertLevels, insertLevels, if_neg (by omega), if_neg (by omega)]
      exact hs.sublist l
  · rw [hbottom]
    refine ((hperm.cons head).trans (List.Perm.swap _ _ _)).nodup_iff.mpr ?_
    exact List.nodup_cons.mpr ⟨hs.fresh 0, hs.nodup⟩
  · rw [hbottom, hsize]
    intro x hx
    rcases List.mem_cons.mp ((hperm.cons head).trans (List.Perm.swap _ _ _) |>.subset hx) with rfl | hx
    · exact Nat.lt_succ_self _
    · exact (hs.lt_size x hx).trans (Nat.lt_succ_self _)
  · rw [hbottom]
    change List.Pairwise (NodeLe less (t.linkNode s.size prev' h).key) _
    rw [hkey']
    exact (hs.sorted_update key 0).orderedInsert _ _
  · intro l hl
    rw [hheight] at hl
    have hl : (if h > s.cur_height then h else s.cur_height) ≤ l := hl
    rw [insertLevels, if_neg (by split at hl <;> omega)]
    exact hs.above l (by split at hl <;> omega)
  · rw [hheight]
    change 1 ≤ (if h > s.cur_height then h else s.cur_height) ∧
      (if h > s.cur_height then h else s.cur_height) ≤ kMaxHeight
    split
    · exact ⟨hpos, hmax⟩
    · exact hs.height

/-- `Insert` keeps the list of keys sorted and puts the new key in front of its equals. -/
theorem insert_represents {keys : List K} (hs : Represents less s keys) (key : K) (h : TowerHeight) :
    ∃ s', s.insert less key h.1 = some s' ∧
      Represents less s' (keys.orderedInsert (KeyLe less) key) := by
  obtain ⟨levels, hlevels, rfl⟩ := hs
  obtain ⟨s', hins, hkey, hlevels'⟩ := insert_levels hlevels key h
  refine ⟨s', hins, _, hlevels', ?_⟩
  have hmap : (levels 0).map s'.key = (levels 0).map s.key :=
    List.map_congr_left fun x hx => by rw [hkey, hlevels.key_update key hx]
  have hnew : s'.key s.size = key := by rw [hkey, Function.update_self]
  have hkeys : ((levels 0).orderedInsert (NodeLe less s'.key) s.size).map s'.key =
      ((levels 0).map s'.key).orderedInsert (KeyLe less) (s'.key s.size) :=
    List.map_orderedInsert _ _ _ _ _ (fun _ _ => Iff.rfl) (fun _ _ => Iff.rfl)
  rw [insertLevels, if_pos (Nat.lt_of_succ_le h.2.1), hkeys, hmap, hnew]

omit [Std.Total (KeyLe less)] in
/-- `Seek` stops at the first key not below the target. -/
theorem seek_represents {keys : List K} (hs : Represents less s keys) (target : K) :
    ∃ node, s.seek less target = some node ∧
      node.map s.key = keys.find? fun k => !less k target := by
  obtain ⟨levels, hlevels, rfl⟩ := hs
  obtain ⟨prev, hfind, -⟩ := findGreaterOrEqual_spec hlevels target
  refine ⟨_, by rw [seek, hfind]; rfl, ?_⟩
  rw [List.find?_map, List.find?_eq_head?_dropWhile_not]
  simp only [Function.comp_apply, Bool.not_not]

omit [IsTrans K (KeyLe less)] [Std.Total (KeyLe less)] in
/-- Walking the bottom level from one of its nodes. -/
theorem Levels.keysFrom_suffix (h : Levels less s levels) {pre suf : List ℕ}
    (hsplit : levels 0 = pre ++ suf) : s.keysFrom s.size suf.head? = some (suf.map s.key) := by
  have hwalk : ∀ (fuel x : ℕ) (L : List ℕ), Chain (fun x => s.next x 0) x L → L.length ≤ fuel →
      s.keysFrom fuel L.head? = some (L.map s.key) := by
    intro fuel x L hL hlen
    induction L generalizing fuel x with
    | nil => cases fuel <;> rfl
    | cons y L ih =>
        obtain ⟨-, hL⟩ := hL
        obtain ⟨fuel, rfl⟩ : ∃ m, fuel = m + 1 := ⟨fuel - 1, by rw [List.length_cons] at hlen; omega⟩
        have hy : s.next y 0 = L.head? := hL.head?
        rw [List.head?_cons, keysFrom, hy, ih fuel y hL (by rw [List.length_cons] at hlen; omega)]
        rfl
  have hchain := h.chain 0
  have hlen := h.length_lt 0
  rw [hsplit] at hchain
  rw [hsplit, List.length_append] at hlen
  exact hwalk _ (pre.getLastD head) _ hchain.right (by omega)

omit [IsTrans K (KeyLe less)] [Std.Total (KeyLe less)] in
/-- Iterating from `SeekToFirst` yields the keys in order. -/
theorem toList_represents {keys : List K} (hs : Represents less s keys) : s.toList = some keys := by
  obtain ⟨levels, hlevels, rfl⟩ := hs
  have hfirst : s.next head 0 = (levels 0).head? := (hlevels.chain 0).head?
  rw [toList, hfirst]
  exact hlevels.keysFrom_suffix (List.nil_append _).symm

end SkipList
end MiniLevelDB
