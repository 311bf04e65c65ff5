import MiniLevelDB.Lib.Simulation
import MiniLevelDB.SkipTowers

/-! # Readers of the skip list

`db/skiplist.h` with one thread that inserts and any number of iterators.  A step is one load or one store of
a `next_` or of `cur_height_`, and takes effect at once.  What the writer searches is what it has stored
itself, so its `FindGreaterOrEqual` is one step.

`Consistent` holds at every moment: the levels are those of a skip list, one of whose towers may be short of
its upper levels.  From this the list is for its readers a sorted list into which each key comes in one step
(`concurrent_run`). -/

namespace MiniLevelDB
namespace SkipList

open Linked Effect

variable {K ι : Type}

/-! ### The steps -/

/-- Where the writer is in `Insert`. -/
inductive Writer (K : Type) where
  | idle
  /-- `prev` and the height of the tower are known -/
  | placed (key : K) (h : ℕ) (prev : ℕ → ℕ)
  /-- `cur_height_` is stored -/
  | raised (key : K) (h : ℕ) (prev : ℕ → ℕ)
  /-- the node `n` has its successors below level `i` -/
  | linking (n h : ℕ) (prev : ℕ → ℕ) (i : ℕ)
  /-- the node `n` is stored in `prev` below level `i` -/
  | publishing (n h : ℕ) (prev : ℕ → ℕ) (i : ℕ)

/-- A step of the writer on the memory; it shows the node that has come to the bottom level. -/
inductive Writer.Step (less : K → K → Bool) (mem : SkipList K) :
    Writer K → Option ℕ → SkipList K → Writer K → Prop
  | place {key : K} {h : TowerHeight} {node : Option ℕ} {prev : ℕ → ℕ} :
      mem.findGreaterOrEqual less key = some (node, prev) →
      Step less mem .idle none mem
        (.placed key h.1 fun i => if mem.cur_height ≤ i ∧ i < h.1 then head else prev i)
  | raise {key : K} {h : ℕ} {prev : ℕ → ℕ} : Step less mem (.placed key h prev) none
      { mem with cur_height := if h > mem.cur_height then h else mem.cur_height } (.raised key h prev)
  | allocate {key : K} {h : ℕ} {prev : ℕ → ℕ} : Step less mem (.raised key h prev) none
      (mem.newNode key) (.linking mem.size h prev 0)
  | link {n h i : ℕ} {prev : ℕ → ℕ} : i < h → Step less mem (.linking n h prev i) none
      (mem.store n i (mem.next (prev i) i)) (.linking n h prev (i + 1))
  | linked {n h : ℕ} {prev : ℕ → ℕ} : Step less mem (.linking n h prev h) none mem (.publishing n h prev 0)
  | publish {n h i : ℕ} {prev : ℕ → ℕ} : i < h → Step less mem (.publishing n h prev i)
      (if i = 0 then some n else none) (mem.store (prev i) i (some n)) (.publishing n h prev (i + 1))
  | done {n h : ℕ} {prev : ℕ → ℕ} : Step less mem (.publishing n h prev h) none mem .idle

/-- An iterator: it rests on its node, or it is in the loop of `FindGreaterOrEqual`. -/
inductive Reader (K : Type) where
  | resting (node : Option ℕ)
  | searching (target : K) (level x : ℕ)

/-- What an iterator has come to: by `Seek`, by `SeekToFirst`, by `Next` from the node `n`. -/
inductive Came (K : Type) where
  | sought (target : K) (node : Option ℕ)
  | first (node : Option ℕ)
  | moved (n : ℕ) (node : Option ℕ)

/-- A step of an iterator. -/
inductive Reader.Step (less : K → K → Bool) (mem : SkipList K) :
    Reader K → Option (Came K) → Reader K → Prop
  | seek {target : K} {node : Option ℕ} :
      Step less mem (.resting node) none (.searching target (mem.cur_height - 1) head)
  | forward {target : K} {level x n : ℕ} :
      ((mem.next x level).filter fun n => less (mem.key n) target) = some n →
      Step less mem (.searching target level x) none (.searching target level n)
  | descend {target : K} {level x : ℕ} :
      ((mem.next x (level + 1)).filter fun n => less (mem.key n) target) = none →
      Step less mem (.searching target (level + 1) x) none (.searching target level x)
  | sought {target : K} {x : ℕ} : ((mem.next x 0).filter fun n => less (mem.key n) target) = none →
      Step less mem (.searching target 0 x) (some (.sought target (mem.next x 0))) (.resting (mem.next x 0))
  | first {node : Option ℕ} :
      Step less mem (.resting node) (some (.first (mem.next head 0))) (.resting (mem.next head 0))
  | next {n : ℕ} :
      Step less mem (.resting (some n)) (some (.moved n (mem.next n 0))) (.resting (mem.next n 0))

/-- A skip list, the thread that inserts, and the iterators. -/
structure Shared (K ι : Type) where
  mem : SkipList K
  writer : Writer K
  readers : ι → Reader K

/-- What can be seen of a skip list: that a node with a key has come, and what an iterator has come to. -/
inductive Event (K ι : Type) where
  | inserted (n : ℕ) (key : K)
  | read (i : ι) (came : Came K)

/-- A step of the writer or of one of the iterators. -/
inductive Shared.Step [DecidableEq ι] (less : K → K → Bool) (s : Shared K ι) :
    Option (Event K ι) → Shared K ι → Prop
  | write {node : Option ℕ} {mem' : SkipList K} {writer' : Writer K} :
      Writer.Step less s.mem s.writer node mem' writer' →
      Step less s (node.map fun n => .inserted n (s.mem.key n)) { s with mem := mem', writer := writer' }
  | read (i : ι) {came : Option (Came K)} {r : Reader K} : Reader.Step less s.mem (s.readers i) came r →
      Step less s (came.map (.read i)) { s with readers := Function.update s.readers i r }

/-- The skip list with its threads. -/
def concurrent (K ι : Type) [Inhabited K] [DecidableEq ι] (less : K → K → Bool) :
    System (Event K ι) (Shared K ι) where
  start s := s = ⟨empty, .idle, fun _ => .resting none⟩
  step := Shared.Step less

/-- The order of the nodes by their keys. -/
abbrev EntryLe (less : K → K → Bool) : ℕ × K → ℕ × K → Prop := Order.Preimage Prod.snd (KeyLe less)

/-- A sorted list of nodes and keys, each insertion and each move of an iterator one step. -/
def ordered (K ι : Type) (less : K → K → Bool) : System (Event K ι) (List (ℕ × K)) where
  start L := L = []
  step L e L' :=
    match e with
    | none => False
    | some (.inserted n key) => L' = L.orderedInsert (EntryLe less) (n, key)
    | some (.read _ (.sought target node)) =>
        L' = L ∧ node = (L.find? fun p => !less p.2 target).map Prod.fst
    | some (.read _ (.first node)) => L' = L ∧ node = L.head?.map Prod.fst
    | some (.read _ (.moved n node)) =>
        L' = L ∧ ∃ pre key suf, L = pre ++ (n, key) :: suf ∧ node = suf.head?.map Prod.fst

/-! ### Threads that are not disturbed -/

section

variable {less : K → K → Bool} {s s' : SkipList K}

/-- Steps of the writer alone. -/
abbrev Writer.Alone (less : K → K → Bool) : SkipList K × Writer K → SkipList K × Writer K → Prop :=
  Relation.ReflTransGen fun a b => ∃ node, Writer.Step less a.1 a.2 node b.1 b.2

/-- A writer that is alone does `Insert`. -/
theorem insert_alone {key : K} {h : TowerHeight} (hins : s.insert less key h.1 = some s') :
    Writer.Alone less (s, .idle) (s', .idle) := by
  obtain ⟨⟨node, prev⟩, hfind, rfl⟩ := Option.map_eq_some_iff.mp hins
  dsimp only
  generalize hprev : (fun i => if s.cur_height ≤ i ∧ i < h.1 then head else prev i) = prev'
  have hplaced : Writer.Alone less (s, .idle) (s, .placed key h.1 prev') := by
    rw [← hprev]
    exact .single ⟨none, .place hfind⟩
  have hlinking : ∀ (t : SkipList K) (n j : ℕ), j ≤ h.1 → Writer.Alone less (t, .linking n h.1 prev' 0)
      ((List.range j).foldl (fun t i => t.store n i (t.next (prev' i) i)) t, .linking n h.1 prev' j) := by
    intro t n j hj
    induction j with
    | zero => exact .refl
    | succ j ih =>
        rw [List.range_succ, List.foldl_append]
        exact (ih (Nat.le_of_succ_le hj)).tail ⟨none, .link hj⟩
  have hpublishing : ∀ (t : SkipList K) (n j : ℕ), j ≤ h.1 →
      Writer.Alone less (t, .publishing n h.1 prev' 0)
        ((List.range j).foldl (fun t i => t.store (prev' i) i (some n)) t, .publishing n h.1 prev' j) := by
    intro t n j hj
    induction j with
    | zero => exact .refl
    | succ j ih =>
        rw [List.range_succ, List.foldl_append]
        exact (ih (Nat.le_of_succ_le hj)).tail ⟨_, .publish hj⟩
  have hraised : Writer.Alone less (s, .idle)
      ({ s with cur_height := if h.1 > s.cur_height then h.1 else s.cur_height }, .raised key h.1 prev') :=
    hplaced.tail ⟨none, .raise⟩
  have hallocated : Writer.Alone less (s, .idle)
      (newNode { s with cur_height := if h.1 > s.cur_height then h.1 else s.cur_height } key,
        .linking s.size h.1 prev' 0) := hraised.tail ⟨none, .allocate⟩
  have hlinked : ∀ (t : SkipList K) (n : ℕ), Writer.Alone less (t, .linking n h.1 prev' 0)
      ((List.range h.1).foldl (fun t i => t.store n i (t.next (prev' i) i)) t, .publishing n h.1 prev' 0) :=
    fun t n => (hlinking t n h.1 le_rfl).tail ⟨none, .linked⟩
  have hpublished : ∀ (t : SkipList K) (n : ℕ), Writer.Alone less (t, .publishing n h.1 prev' 0)
      ((List.range h.1).foldl (fun t i => t.store (prev' i) i (some n)) t, .idle) :=
    fun t n => (hpublishing t n h.1 le_rfl).tail ⟨none, .done⟩
  exact hallocated.trans ((hlinked _ _).trans (hpublished _ _))

/-- An iterator that is alone does `FindGreaterOrEqual`. -/
theorem findLoop_alone {target : K} {fuel level x : ℕ} {prev prev' : ℕ → ℕ} {node : Option ℕ}
    (hfind : findLoop less s target fuel level x prev = some (node, prev')) :
    ∃ y, Relation.ReflTransGen (fun r r' => Reader.Step less s r none r') (.searching target level x)
        (.searching target 0 y) ∧
      Reader.Step less s (.searching target 0 y) (some (.sought target node)) (.resting node) := by
  induction fuel generalizing level x prev with
  | zero => cases hfind
  | succ fuel ih =>
      rw [findLoop] at hfind
      cases hnext : (s.next x level).filter fun n => less (s.key n) target with
      | some n =>
          rw [hnext] at hfind
          obtain ⟨y, hsteps, hlast⟩ := ih hfind
          exact ⟨y, hsteps.head (.forward hnext), hlast⟩
      | none =>
          rw [hnext] at hfind
          cases level with
          | zero =>
              obtain ⟨rfl, -⟩ := Prod.mk.inj (Option.some.inj hfind)
              exact ⟨x, .refl, .sought hnext⟩
          | succ level =>
              obtain ⟨y, hsteps, hlast⟩ := ih hfind
              exact ⟨y, hsteps.head (.descend hnext), hlast⟩

end

/-! ### What holds at every moment -/

section

variable {less : K → K → Bool} {mem : SkipList K} {levels base : ℕ → List ℕ} {n h i : ℕ} {prev : ℕ → ℕ}

/-- A node with a tower of height `h` is linked in behind `prev` on the levels `base`. -/
structure Splicing (less : K → K → Bool) (mem : SkipList K) (base : ℕ → List ℕ) (n h : ℕ)
    (prev : ℕ → ℕ) : Prop where
  pos : 1 ≤ h
  le : h ≤ mem.cur_height
  lt_size : n < mem.size
  fresh : n ∉ head :: base 0
  sublist : ∀ l, (base (l + 1)).Sublist (base l)
  sorted : (base 0).Pairwise (NodeLe less mem.key)
  prev : ∀ l < h, prev l = ((base l).takeWhile (below less mem (mem.key n))).getLastD head

theorem Splicing.sublist_bottom (hsp : Splicing less mem base n h prev) (l : ℕ) :
    (base l).Sublist (base 0) := by
  induction l with
  | zero => exact List.Sublist.refl _
  | succ l ih => exact (hsp.sublist l).trans ih

theorem Splicing.not_mem (hsp : Splicing less mem base n h prev) (l : ℕ) : n ∉ head :: base l :=
  fun hmem => hsp.fresh (((hsp.sublist_bottom l).cons_cons head).subset hmem)

theorem Splicing.prev_ne (hsp : Splicing less mem base n h prev) {l : ℕ} (hl : l < h) : prev l ≠ n := by
  intro he
  apply hsp.not_mem l
  rw [← he, hsp.prev l hl]
  exact ((List.takeWhile_sublist _).cons_cons head).subset List.getLastD_mem_cons

/-- What the writer knows of the levels. -/
def Writer.Fits (less : K → K → Bool) (mem : SkipList K) (levels : ℕ → List ℕ) : Writer K → Prop
  | .idle => True
  | .placed key h prev => 1 ≤ h ∧ h ≤ kMaxHeight ∧
      ∀ l < h, prev l = ((levels l).takeWhile (below less mem key)).getLastD head
  | .raised key h prev => 1 ≤ h ∧ h ≤ mem.cur_height ∧
      ∀ l < h, prev l = ((levels l).takeWhile (below less mem key)).getLastD head
  | .linking n h prev i => Splicing less mem levels n h prev ∧ ∀ l < i, mem.next n l = mem.next (prev l) l
  | .publishing n h prev i => ∃ base, Splicing less mem base n h prev ∧
      levels = insertLevels less mem.key n i base ∧ ∀ l, i ≤ l → l < h → mem.next n l = mem.next (prev l) l

/-- An iterator is at a node of the list, or it has come to one that is below its target. -/
def Reader.Fits (less : K → K → Bool) (mem : SkipList K) (levels : ℕ → List ℕ) : Reader K → Prop
  | .resting node => ∀ n ∈ node, n ∈ levels 0
  | .searching target level x => x = head ∨ x ∈ levels level ∧ below less mem target x = true

/-- The levels after a step of the writer: none loses a node, and the bottom one has the node that has come. -/
structure Grown (less : K → K → Bool) (mem mem' : SkipList K) (levels levels' : ℕ → List ℕ)
    (node : Option ℕ) : Prop where
  subset : ∀ l, levels l ⊆ levels' l
  key : ∀ x ∈ levels 0, mem'.key x = mem.key x
  bottom : levels' 0 = match node with
    | none => levels 0
    | some n => (levels 0).orderedInsert (NodeLe less mem.key) n
  come : ∀ n ∈ node, mem'.key = mem.key

theorem Grown.refl (mem : SkipList K) (levels : ℕ → List ℕ) : Grown less mem mem levels levels none :=
  ⟨fun _ => List.Subset.refl _, fun _ _ => rfl, rfl, fun _ h => by cases h⟩

/-! ### The levels while the writer is at work -/

theorem insertLevels_succ_ne {key : ℕ → K} {l : ℕ} (hl : l ≠ i) :
    insertLevels less key n (i + 1) base l = insertLevels less key n i base l := by
  rw [insertLevels, insertLevels]
  by_cases hlt : l < i
  · rw [if_pos hlt, if_pos (by omega)]
  · rw [if_neg hlt, if_neg (by omega)]

theorem insertLevels_self (key : ℕ → K) : insertLevels less key n i base i = base i :=
  if_neg (Nat.lt_irrefl i)

theorem insertLevels_succ_self (key : ℕ → K) :
    insertLevels less key n (i + 1) base i = (base i).orderedInsert (NodeLe less key) n :=
  if_pos (Nat.lt_succ_self i)

theorem subset_insertLevels_succ (key : ℕ → K) (l : ℕ) :
    insertLevels less key n i base l ⊆ insertLevels less key n (i + 1) base l := by
  by_cases hl : l = i
  · subst hl
    rw [insertLevels_self, insertLevels_succ_self]
    exact (List.sublist_orderedInsert _ _).subset
  · rw [insertLevels_succ_ne hl]
    exact List.Subset.refl _

theorem Levels.raise (hs : Levels less mem levels) (hh : h ≤ kMaxHeight) :
    Levels less { mem with cur_height := if h > mem.cur_height then h else mem.cur_height } levels := by
  refine ⟨hs.chain, hs.sublist, hs.nodup, hs.lt_size, hs.sorted, ?_, ?_⟩
  · intro l hl
    dsimp only at hl
    exact hs.above l (by split at hl <;> omega)
  · have := hs.height
    dsimp only
    split
    · exact ⟨by omega, hh⟩
    · exact this

/-- A store into a node that is on no level. -/
theorem Levels.storeFresh (hs : Levels less mem levels) (hn : n ∉ head :: levels 0) (y : Option ℕ) :
    Levels less (mem.store n i y) levels := by
  refine ⟨fun l => ?_, hs.sublist, hs.nodup, hs.lt_size, hs.sorted, hs.above, hs.height⟩
  refine (hs.chain l).congr fun x hx => ?_
  have hne : x ≠ n := by
    rintro rfl
    exact hn (((hs.sublist_bottom l).cons_cons head).subset hx)
  rw [store_next, if_neg fun e => hne e.1]

theorem Levels.newNode [IsTrans K (KeyLe less)] (hs : Levels less mem levels) (key : K) :
    Levels less (mem.newNode key) levels := by
  refine ⟨fun l => ?_, hs.sublist, hs.nodup, ?_, hs.sorted_update key 0, hs.above, hs.height⟩
  · refine (hs.chain l).congr fun x hx => ?_
    rw [newNode_next, if_neg]
    rintro rfl
    exact hs.fresh l hx
  · exact fun x hx => (hs.lt_size x hx).trans (Nat.lt_succ_self _)

theorem Splicing.level_sorted (hsp : Splicing less mem base n h prev) (l : ℕ) :
    (base l).Pairwise (NodeLe less mem.key) := hsp.sorted.sublist (hsp.sublist_bottom l)

variable [IsTrans K (KeyLe less)]

theorem Splicing.sublist_insertLevels (hsp : Splicing less mem base n h prev) (m l : ℕ) :
    (insertLevels less mem.key n m base (l + 1)).Sublist (insertLevels less mem.key n m base l) := by
  rw [insertLevels, insertLevels]
  by_cases hl : l + 1 < m
  · rw [if_pos hl, if_pos (by omega)]
    exact (hsp.sublist l).orderedInsert_sublist _ (hsp.level_sorted l)
  · rw [if_neg hl]
    split
    · exact (hsp.sublist l).trans (List.sublist_orderedInsert _ _)
    · exact hsp.sublist l

variable [Std.Total (KeyLe less)]

/-- The node is stored in `prev` on one more level. -/
theorem Levels.publish (hs : Levels less mem (insertLevels less mem.key n i base))
    (hsp : Splicing less mem base n h prev) (hi : i < h) (hnext : mem.next n i = mem.next (prev i) i) :
    Levels less (mem.store (prev i) i (some n)) (insertLevels less mem.key n (i + 1) base) := by
  -- the bottom level changes with the first store only
  have hbottom : (insertLevels less mem.key n (i + 1) base 0).Perm (n :: base 0) := by
    rw [insertLevels, if_pos (Nat.succ_pos i)]
    exact List.perm_orderedInsert _ _ _
  refine ⟨fun l => ?_, hsp.sublist_insertLevels (i + 1), ?_, ?_, ?_, ?_, hs.height⟩
  · by_cases hl : l = i
    · subst hl
      have hchain := hs.chain l
      have hnodup := hs.level_nodup l
      have hfresh := hsp.not_mem l
      have hprev := hsp.prev l hi
      rw [insertLevels_self, ← List.takeWhile_append_dropWhile (p := below less mem (mem.key n)) (l := base l)]
        at hchain hnodup
      rw [← List.takeWhile_append_dropWhile (p := below less mem (mem.key n)) (l := base l)] at hfresh
      rw [insertLevels_succ_self, orderedInsert_eq (below less mem (mem.key n)) fun _ _ => rfl]
      refine hchain.insertAfter hnodup hfresh ?_ ?_ ?_
      · rw [← hprev, store_next, if_pos ⟨rfl, rfl⟩]
      · rw [store_next, if_neg fun e => hsp.prev_ne hi e.1.symm, hnext, hprev]
      · intro y hy _
        rw [← hprev] at hy
        rw [store_next, if_neg fun e => hy e.1]
    · rw [insertLevels_succ_ne hl]
      refine (hs.chain l).congr fun x _ => ?_
      rw [store_next, if_neg fun e => hl e.2]
  · by_cases hi0 : i = 0
    · subst hi0
      refine ((hbottom.cons head).trans (List.Perm.swap _ _ _)).nodup_iff.mpr ?_
      have hnodup := hs.nodup
      rw [insertLevels_self] at hnodup
      exact List.nodup_cons.mpr ⟨hsp.fresh, hnodup⟩
    · rw [insertLevels_succ_ne (Ne.symm hi0)]
      exact hs.nodup
  · intro x hx
    rcases List.mem_cons.mp ((hbottom.cons head).trans (List.Perm.swap _ _ _) |>.subset hx) with rfl | hx
    · exact hsp.lt_size
    · rcases List.mem_cons.mp hx with rfl | hx
      · exact hs.lt_size _ List.mem_cons_self
      · refine hs.lt_size x (List.mem_cons_of_mem _ ?_)
        rw [insertLevels]
        split
        · exact (List.sublist_orderedInsert _ _).subset hx
        · exact hx
  · rw [insertLevels, if_pos (Nat.succ_pos i)]
    exact hsp.sorted.orderedInsert _ _
  · intro l hl
    have hl : mem.cur_height ≤ l := hl
    have hle := hsp.le
    rw [insertLevels_succ_ne (by omega)]
    exact hs.above l hl

/-! ### The steps keep it -/

/-- **A step of the writer.** -/
theorem Writer.Step.keeps {node : Option ℕ} {mem' : SkipList K} {writer writer' : Writer K}
    (hstep : Writer.Step less mem writer node mem' writer') (hs : Levels less mem levels)
    (hfits : writer.Fits less mem levels) :
    ∃ levels', Levels less mem' levels' ∧ writer'.Fits less mem' levels' ∧
      Grown less mem mem' levels levels' node := by
  cases hstep with
  | @place key h _ prev hfind =>
      obtain ⟨prev', hfind', hprev⟩ := findGreaterOrEqual_spec hs key
      obtain ⟨-, rfl⟩ := Prod.mk.inj (Option.some.inj (hfind.symm.trans hfind'))
      exact ⟨levels, hs, ⟨h.2.1, h.2.2, fun l hl => hs.prev_eq hprev hl⟩, Grown.refl mem levels⟩
  | @raise key h prev =>
      obtain ⟨hpos, hmax, hprev⟩ := hfits
      refine ⟨levels, hs.raise hmax, ⟨hpos, ?_, hprev⟩, fun _ => List.Subset.refl _, fun _ _ => rfl, rfl, ?_⟩
      · dsimp only
        split <;> omega
      · exact fun _ h => by cases h
  | @allocate key h prev =>
      obtain ⟨hpos, hle, hprev⟩ := hfits
      have hkey : ∀ l, ∀ x ∈ levels l, (mem.newNode key).key x = mem.key x := fun l x hx =>
        hs.key_update key hx
      have hself : (mem.newNode key).key mem.size = key := Function.update_self _ _ _
      refine ⟨levels, hs.newNode key, ⟨⟨hpos, hle, Nat.lt_succ_self _, hs.fresh 0, hs.sublist,
        hs.sorted_update key 0, fun l hl => ?_⟩, fun l hl => absurd hl (Nat.not_lt_zero l)⟩,
        fun _ => List.Subset.refl _, hkey 0, rfl, fun _ h => by cases h⟩
      have hbelow : (levels l).takeWhile (below less (mem.newNode key) key) =
          (levels l).takeWhile (below less mem key) := by
        have hsame : ∀ x ∈ levels l, below less (mem.newNode key) key x = below less mem key x :=
          fun x hx => by rw [below, hkey l x hx]
        generalize levels l = L at hsame
        induction L with
        | nil => rfl
        | cons x L ih =>
            rw [List.takeWhile_cons, List.takeWhile_cons, hsame x List.mem_cons_self,
              ih fun y hy => hsame y (List.mem_cons_of_mem _ hy)]
      rw [hself, hbelow]
      exact hprev l hl
  | @link n h i prev hi =>
      obtain ⟨hsp, hnext⟩ := hfits
      refine ⟨levels, hs.storeFresh hsp.fresh _, ⟨⟨hsp.pos, hsp.le, hsp.lt_size, hsp.fresh, hsp.sublist,
        hsp.sorted, hsp.prev⟩, fun l hl => ?_⟩, fun _ => List.Subset.refl _, fun _ _ => rfl, rfl, ?_⟩
      · have hother : (mem.store n i (mem.next (prev i) i)).next (prev l) l = mem.next (prev l) l := by
          rw [store_next, if_neg fun e => hsp.prev_ne (by omega) e.1]
        rw [hother, store_next]
        by_cases hli : l = i
        · rw [if_pos ⟨rfl, hli⟩, hli]
        · rw [if_neg fun e => hli e.2]
          exact hnext l (by omega)
      · exact fun _ h => by cases h
  | @linked n h prev =>
      obtain ⟨hsp, hnext⟩ := hfits
      exact ⟨levels, hs, ⟨levels, hsp, funext fun l => (if_neg (Nat.not_lt_zero l)).symm,
        fun l _ hl => hnext l hl⟩, Grown.refl mem levels⟩
  | @publish n h i prev hi =>
      obtain ⟨base, hsp, rfl, hnext⟩ := hfits
      refine ⟨_, hs.publish hsp hi (hnext i le_rfl hi), ⟨base, ⟨hsp.pos, hsp.le, hsp.lt_size, hsp.fresh,
        hsp.sublist, hsp.sorted, hsp.prev⟩, rfl, fun l hle hl => ?_⟩, subset_insertLevels_succ _,
        fun _ _ => rfl, ?_, fun _ _ => rfl⟩
      · rw [store_next, store_next, if_neg fun e => by omega, if_neg fun e => by omega]
        exact hnext l (by omega) hl
      · by_cases hi0 : i = 0
        · subst hi0
          rw [if_pos rfl, insertLevels_succ_self, insertLevels_self]
        · rw [if_neg hi0, insertLevels_succ_ne (Ne.symm hi0)]
  | done => exact ⟨levels, hs, trivial, Grown.refl mem levels⟩

omit [IsTrans K (KeyLe less)] [Std.Total (KeyLe less)] in
/-- The steps of the writer do not take an iterator from its node. -/
theorem Grown.reader {mem' : SkipList K} {levels' : ℕ → List ℕ} {node : Option ℕ} {r : Reader K}
    (h : Grown less mem mem' levels levels' node) (hs : Levels less mem levels)
    (hr : r.Fits less mem levels) : r.Fits less mem' levels' := by
  cases r with
  | resting node => exact fun n hn => h.subset 0 (hr n hn)
  | searching target level x =>
      rcases hr with rfl | ⟨hx, hlt⟩
      · exact Or.inl rfl
      · refine Or.inr ⟨h.subset level hx, ?_⟩
        rw [below, h.key x ((hs.sublist_bottom level).subset hx)]
        exact hlt

omit [Std.Total (KeyLe less)] in
/-- What lies before the node a search has come to is below the target. -/
theorem Levels.split_behind (hs : Levels less mem levels) {target : K} {l x : ℕ}
    (hx : x = head ∨ x ∈ levels l ∧ below less mem target x = true) :
    ∃ pre suf, levels l = pre ++ suf ∧ (∀ y ∈ pre, below less mem target y) ∧ mem.next x l = suf.head? := by
  rcases hx with rfl | ⟨hx, hlt⟩
  · exact ⟨[], levels l, rfl, fun _ hy => absurd hy List.not_mem_nil, (hs.chain l).head?⟩
  · obtain ⟨a, b, hab⟩ := List.append_of_mem hx
    have hsorted := hs.level_sorted l
    have hchain := hs.chain l
    rw [hab] at hsorted
    rw [hab, List.append_cons] at hchain
    refine ⟨a ++ [x], b, by rw [hab, List.append_cons], ?_, ?_⟩
    · intro y hy
      rcases List.mem_append.mp hy with hy | hy
      · exact less_of_keyLe ((List.pairwise_append.mp hsorted).2.2 y hy x List.mem_cons_self) hlt
      · obtain rfl := List.mem_singleton.mp hy
        exact hlt
    · have hnext := hchain.next_getLastD
      rwa [List.getLastD_concat] at hnext

/-- The bottom level, with the keys. -/
def entries (mem : SkipList K) (levels : ℕ → List ℕ) : List (ℕ × K) := (levels 0).map fun n => (n, mem.key n)

omit [IsTrans K (KeyLe less)] [Std.Total (KeyLe less)] in
theorem head?_entries {mem : SkipList K} {L : List ℕ} :
    (L.map fun n => (n, mem.key n)).head?.map Prod.fst = L.head? := by
  cases L <;> rfl

omit [Std.Total (KeyLe less)] in
/-- **A step of an iterator**: it does not leave the list, and what it comes to is what the list then has. -/
theorem Reader.Step.keeps [DecidableEq ι] {r r' : Reader K} {came : Option (Came K)} (i : ι)
    (hstep : Reader.Step less mem r came r') (hs : Levels less mem levels) (hr : r.Fits less mem levels) :
    r'.Fits less mem levels ∧
      ∀ c ∈ came, (ordered K ι less).step (entries mem levels) (some (.read i c)) (entries mem levels) := by
  have hbottom : ∀ x, (x = head ∨ x ∈ levels 0) → ∀ n ∈ mem.next x 0, n ∈ levels 0 := by
    rintro x (rfl | hx) n hn
    · rw [(hs.chain 0).head?] at hn
      exact List.mem_of_mem_head? hn
    · obtain ⟨a, b, hab⟩ := List.append_of_mem hx
      have hchain := hs.chain 0
      rw [hab, List.append_cons] at hchain
      have hnext := hchain.next_getLastD
      rw [List.getLastD_concat] at hnext
      rw [hnext] at hn
      rw [hab]
      exact List.mem_append_right _ (List.mem_cons_of_mem _ (List.mem_of_mem_head? hn))
  cases hstep with
  | seek => exact ⟨Or.inl rfl, fun _ h => by cases h⟩
  | @forward target level x n hnext =>
      obtain ⟨pre, suf, hsplit, -, hx⟩ := hs.split_behind hr
      rw [hx, Option.filter_eq_some_iff] at hnext
      refine ⟨Or.inr ⟨?_, hnext.2⟩, fun _ h => by cases h⟩
      rw [hsplit]
      exact List.mem_append_right _ (List.mem_of_mem_head? hnext.1)
  | @descend target level x hnext =>
      refine ⟨?_, fun _ h => by cases h⟩
      rcases hr with rfl | ⟨hx, hlt⟩
      · exact Or.inl rfl
      · exact Or.inr ⟨(hs.sublist level).subset hx, hlt⟩
  | @sought target x hnext =>
      obtain ⟨pre, suf, hsplit, hpre, hx⟩ := hs.split_behind hr
      rw [hx] at hnext
      obtain ⟨-, hdrop⟩ := split_at_key hsplit hpre hnext
      refine ⟨hbottom x (hr.imp_right And.left), ?_⟩
      rintro _ ⟨⟩
      refine ⟨rfl, ?_⟩
      rw [hx, ← hdrop, entries, List.find?_map, List.find?_eq_head?_dropWhile_not, Option.map_map]
      simp only [Function.comp_def, Bool.not_not, Option.map_id']
  | first =>
      refine ⟨hbottom head (Or.inl rfl), ?_⟩
      rintro _ ⟨⟩
      refine ⟨rfl, ?_⟩
      rw [(hs.chain 0).head?, entries, head?_entries]
  | @next n =>
      have hn : n ∈ levels 0 := hr n rfl
      refine ⟨hbottom n (Or.inr hn), ?_⟩
      rintro _ ⟨⟩
      obtain ⟨a, b, hab⟩ := List.append_of_mem hn
      have hchain := hs.chain 0
      rw [hab, List.append_cons] at hchain
      have hnext := hchain.next_getLastD
      rw [List.getLastD_concat] at hnext
      refine ⟨rfl, a.map fun n => (n, mem.key n), mem.key n, b.map fun n => (n, mem.key n), ?_, ?_⟩
      · rw [entries, hab, List.map_append, List.map_cons]
      · rw [hnext, head?_entries]

end

/-! ### Every interleaving -/

/-- The skip list at any moment. -/
structure Consistent (less : K → K → Bool) (s : Shared K ι) (levels : ℕ → List ℕ) : Prop where
  list : Levels less s.mem levels
  writer : s.writer.Fits less s.mem levels
  readers : ∀ i, (s.readers i).Fits less s.mem levels

/-- The nodes that have come, with their keys. -/
def insertedIn (es : List (Event K ι)) : List (ℕ × K) :=
  es.filterMap fun
    | .inserted n key => some (n, key)
    | .read _ _ => none

section

variable [DecidableEq ι] {less : K → K → Bool} [IsStrictWeakOrder K fun a b => less a b = true]

omit [DecidableEq ι] [IsStrictWeakOrder K fun a b => less a b = true] in
theorem Grown.sublist {mem mem' : SkipList K} {levels levels' : ℕ → List ℕ} {node : Option ℕ}
    (h : Grown less mem mem' levels levels' node) : (levels 0).Sublist (levels' 0) := by
  rw [h.bottom]
  cases node with
  | none => exact List.Sublist.refl _
  | some n => exact List.sublist_orderedInsert _ _

omit [DecidableEq ι] [IsStrictWeakOrder K fun a b => less a b = true] in
theorem Grown.entries_eq {mem mem' : SkipList K} {levels levels' : ℕ → List ℕ}
    (h : Grown less mem mem' levels levels' none) : entries mem' levels' = entries mem levels := by
  rw [entries, h.bottom, entries]
  exact List.map_congr_left fun n hn => by rw [h.key n hn]

omit [DecidableEq ι] [IsStrictWeakOrder K fun a b => less a b = true] in
theorem Grown.entries_come {mem mem' : SkipList K} {levels levels' : ℕ → List ℕ} {n : ℕ}
    (h : Grown less mem mem' levels levels' (some n)) :
    entries mem' levels' =
      (entries mem levels).orderedInsert (EntryLe less) (n, mem.key n) := by
  rw [entries, h.bottom, h.come n rfl, entries]
  exact List.map_orderedInsert _ _ (fun n => (n, mem.key n)) _ _ (fun _ _ => Iff.rfl) fun _ _ => Iff.rfl

theorem Consistent.read {s : Shared K ι} {i : ι} {came : Option (Came K)} {r : Reader K}
    {levels : ℕ → List ℕ} (h : Consistent less s levels)
    (hstep : Reader.Step less s.mem (s.readers i) came r) :
    Consistent less { s with readers := Function.update s.readers i r } levels := by
  refine ⟨h.list, h.writer, fun j => ?_⟩
  dsimp only
  by_cases hj : j = i
  · subst hj
    rw [Function.update_self]
    exact (hstep.keeps j h.list (h.readers j)).1
  · rw [Function.update_of_ne hj]
    exact h.readers j

/-- **A step of a thread** is hidden, or it is one step of the sorted list. -/
theorem Consistent.step {s s' : Shared K ι} {e : Option (Event K ι)} {levels : ℕ → List ℕ}
    (h : Consistent less s levels) (hstep : s.Step less e s') :
    ∃ levels', Consistent less s' levels' ∧ (levels 0).Sublist (levels' 0) ∧
      (e = none → entries s'.mem levels' = entries s.mem levels) ∧
      ∀ ev ∈ e, (ordered K ι less).step (entries s.mem levels) (some ev) (entries s'.mem levels') := by
  cases hstep with
  | @write node mem' writer' hwrite =>
      obtain ⟨levels', hlist, hfits, hgrown⟩ := hwrite.keeps h.list h.writer
      refine ⟨levels', ⟨hlist, hfits, fun i => hgrown.reader h.list (h.readers i)⟩, hgrown.sublist, ?_, ?_⟩
      · intro hnone
        obtain rfl := Option.map_eq_none_iff.mp hnone
        exact hgrown.entries_eq
      · intro ev hev
        obtain ⟨n, rfl, rfl⟩ := Option.map_eq_some_iff.mp hev
        exact hgrown.entries_come
  | @read i came r hread =>
      refine ⟨levels, h.read hread, List.Sublist.refl _, fun _ => rfl, ?_⟩
      intro ev hev
      obtain ⟨c, hc, rfl⟩ := Option.map_eq_some_iff.mp hev
      exact (hread.keeps i h.list (h.readers i)).2 c hc

variable [Inhabited K]

/-- The skip list with its threads does what the sorted list does. -/
theorem concurrent_simulation : System.Simulation (concurrent K ι less) (ordered K ι less) (fun _ => True)
    fun _ s L => ∃ levels, Consistent less s levels ∧ L = entries s.mem levels where
  start := by
    rintro s rfl
    exact ⟨[], rfl, fun _ => [], ⟨empty_levels, trivial, fun _ _ h => by cases h⟩, rfl⟩
  hidden := by
    rintro es s s' L ⟨levels, h, rfl⟩ hstep
    obtain ⟨levels', h', -, hsame, -⟩ := h.step hstep
    exact ⟨levels', h', (hsame rfl).symm⟩
  event := by
    rintro es s e s' L - ⟨levels, h, rfl⟩ hstep
    obtain ⟨levels', h', -, -, hev⟩ := h.step hstep
    exact ⟨_, hev e rfl, levels', h', rfl⟩

omit [DecidableEq ι] [Inhabited K] in
/-- The sorted list holds what has come. -/
theorem ordered_run {L : List (ℕ × K)} {es : List (Event K ι)} (h : (ordered K ι less).Run L es) :
    L.Pairwise (EntryLe less) ∧ L.Perm (insertedIn es) := by
  refine h.invariant (I := fun es L => L.Pairwise (EntryLe less) ∧ L.Perm (insertedIn es)) ?_ ?_ ?_
  · rintro _ rfl
    exact ⟨.nil, .nil⟩
  · exact fun _ _ _ _ hstep => hstep.elim
  · rintro es L e L' ⟨hsorted, hperm⟩ hstep
    have hcome : insertedIn (es ++ [e]) = insertedIn es ++ insertedIn [e] := List.filterMap_append
    rw [hcome]
    cases e with
    | inserted n key =>
        obtain rfl : L' = L.orderedInsert (EntryLe less) (n, key) := hstep
        refine ⟨hsorted.orderedInsert _ _, ?_⟩
        have hlast : insertedIn [(.inserted n key : Event K ι)] = [(n, key)] := rfl
        rw [hlast]
        exact (List.perm_orderedInsert _ _ _).trans ((hperm.cons _).trans (List.perm_append_singleton _ _).symm)
    | read i came =>
        obtain rfl : L' = L := by
          cases came with
          | sought target node => exact hstep.1
          | first node => exact hstep.1
          | moved n node => exact hstep.1
        have hlast : insertedIn [(.read i came : Event K ι)] = [] := rfl
        rw [hlast, List.append_nil]
        exact ⟨hsorted, hperm⟩

/-- **Readers beside a writer.**  However the steps of a thread that inserts and of any number of iterators
are interleaved, what is seen is what a sorted list shows in which each insertion and each move of an
iterator is one step; the list is that of the bottom level, and holds what has been inserted. -/
theorem concurrent_run {s : Shared K ι} {es : List (Event K ι)} (h : (concurrent K ι less).Run s es) :
    ∃ L levels, (ordered K ι less).Run L es ∧ L.Pairwise (EntryLe less) ∧ L.Perm (insertedIn es) ∧
      Levels less s.mem levels ∧ L = (levels 0).map fun n => (n, s.mem.key n) := by
  obtain ⟨L, hrun, levels, hconsistent, hL⟩ := concurrent_simulation.run (fun _ _ h => h) h trivial
  obtain ⟨hsorted, hperm⟩ := ordered_run hrun
  exact ⟨L, levels, hrun, hsorted, hperm, hconsistent.list, hL⟩

end

/-! ### Searches end -/

/-- Steps of the threads while the iterator `i` is searching, and how many of them are its own. -/
inductive Searching [DecidableEq ι] (less : K → K → Bool) (i : ι) : Shared K ι → ℕ → Shared K ι → Prop
  | refl {s : Shared K ι} : Searching less i s 0 s
  | own {s s' : Shared K ι} {k level x : ℕ} {target : K} : Searching less i s k s' →
      Reader.Step less s'.mem (s'.readers i) none (.searching target level x) →
      Searching less i s (k + 1)
        { s' with readers := Function.update s'.readers i (.searching target level x) }
  | other {s s' s'' : Shared K ι} {k : ℕ} {e : Option (Event K ι)} : Searching less i s k s' →
      s'.Step less e s'' → s''.readers i = s'.readers i → Searching less i s k s''

theorem idxOf_lt_of_sublist {L : List ℕ} {x y : ℕ} (h : [x, y].Sublist L) (hnodup : L.Nodup) :
    L.idxOf x < L.idxOf y := by
  obtain ⟨pre, suf, rfl, hx, hy⟩ := List.cons_sublist_iff.mp h
  have hnot : y ∉ pre := fun hmem =>
    (List.nodup_append.mp hnodup).2.2 y hmem y (List.singleton_sublist.mp hy) rfl
  rw [List.idxOf_append_of_mem hx, List.idxOf_append_of_notMem hnot]
  exact (List.idxOf_lt_length_of_mem hx).trans_le (Nat.le_add_right _ _)

theorem idxOf_le_of_sublist {L L' : List ℕ} {x : ℕ} (h : L.Sublist L') (hnodup : L'.Nodup) (hx : x ∈ L) :
    L.idxOf x ≤ L'.idxOf x := by
  induction h with
  | slnil => exact le_rfl
  | @cons L L' y hsub ih =>
      have hne : y ≠ x := by
        rintro rfl
        exact (List.nodup_cons.mp hnodup).1 (hsub.subset hx)
      rw [List.idxOf_cons_ne _ hne]
      exact (ih (List.nodup_cons.mp hnodup).2 hx).trans (Nat.le_succ _)
  | @cons_cons L L' y hsub ih =>
      by_cases hne : y = x
      · rw [List.idxOf_cons_eq _ hne]
        exact Nat.zero_le _
      · rw [List.idxOf_cons_ne _ hne, List.idxOf_cons_ne _ hne]
        exact Nat.succ_le_succ (ih (List.nodup_cons.mp hnodup).2 ((List.mem_cons.mp hx).resolve_left (Ne.symm hne)))

section

variable [DecidableEq ι] {less : K → K → Bool} [IsStrictWeakOrder K fun a b => less a b = true]

omit [DecidableEq ι] [IsStrictWeakOrder K fun a b => less a b = true] in
/-- The node a search goes on to lies behind the one it has come to. -/
theorem Levels.idxOf_next {mem : SkipList K} {levels : ℕ → List ℕ} {l x n : ℕ} (hs : Levels less mem levels)
    (hx : x ∈ head :: levels l) (hnext : mem.next x l = some n) :
    (head :: levels 0).idxOf x < (head :: levels 0).idxOf n := by
  obtain ⟨a, b, hab⟩ := List.append_of_mem hx
  have hpair : [x, n].Sublist (head :: levels l) := by
    have hb : mem.next x l = b.head? := by
      have hchain := hs.chain l
      cases a with
      | nil =>
          obtain ⟨rfl, rfl⟩ := List.cons.inj hab
          exact hchain.head?
      | cons y a =>
          obtain ⟨-, hlevel⟩ := List.cons.inj hab
          have hlevel : levels l = (a ++ [x]) ++ b := by rw [hlevel, ← List.append_cons]; rfl
          rw [hlevel] at hchain
          have hlast := hchain.next_getLastD
          rwa [List.getLastD_concat] at hlast
    rw [hnext] at hb
    obtain ⟨b, rfl⟩ := List.head?_eq_some_iff.mp hb.symm
    rw [hab]
    exact (List.Sublist.cons_cons x (List.Sublist.cons_cons n (List.nil_sublist b))).trans
      (List.sublist_append_right a _)
  exact idxOf_lt_of_sublist (hpair.trans ((hs.sublist_bottom l).cons_cons head)) hs.nodup

/-- Each step of a search takes it down a level or on to a node further behind. -/
theorem Searching.le {s s' : Shared K ι} {i : ι} {k : ℕ} {target : K} {levels : ℕ → List ℕ}
    (h : Searching less i s k s') (hc : Consistent less s levels)
    (hs : s.readers i = .searching target (s.mem.cur_height - 1) head) :
    ∃ levels' level x, Consistent less s' levels' ∧ s'.readers i = .searching target level x ∧
      k + level ≤ s.mem.cur_height - 1 + (head :: levels' 0).idxOf x := by
  induction h with
  | refl => exact ⟨levels, _, head, hc, hs, by omega⟩
  | @own s' k level' x' target' _ hstep ih =>
      obtain ⟨levels', level, x, hc', hreader, hle⟩ := ih
      have hmem : x ∈ head :: levels' level := by
        have hfits := hc'.readers i
        rw [hreader] at hfits
        rcases hfits with rfl | ⟨hx, -⟩
        · exact List.mem_cons_self
        · exact List.mem_cons_of_mem _ hx
      have hc'' := hc'.read hstep
      rw [hreader] at hstep
      refine ⟨levels', level', x', hc'', ?_, ?_⟩
      · cases hstep with
        | forward _ => exact Function.update_self _ _ _
        | descend _ => exact Function.update_self _ _ _
      · cases hstep with
        | forward hnext =>
            have hlt := hc'.list.idxOf_next hmem (Option.filter_eq_some_iff.mp hnext).1
            omega
        | descend _ => omega
  | @other s' s'' k e _ hstep hsame ih =>
      obtain ⟨levels', level, x, hc', hreader, hle⟩ := ih
      obtain ⟨levels'', hc'', hsub, -, -⟩ := hc'.step hstep
      have hmem : x ∈ head :: levels' 0 := by
        have hfits := hc'.readers i
        rw [hreader] at hfits
        rcases hfits with rfl | ⟨hx, -⟩
        · exact List.mem_cons_self
        · exact List.mem_cons_of_mem _ ((hc'.list.sublist_bottom level).subset hx)
      have hidx := idxOf_le_of_sublist (hsub.cons_cons head) hc''.list.nodup hmem
      exact ⟨levels'', level, x, hc'', hsame.trans hreader, hle.trans (by omega)⟩

/-- **A search ends**: before it has made as many steps as there are levels and nodes, however many keys come
meanwhile. -/
theorem search_ends [Inhabited K] {s s' : Shared K ι} {es : List (Event K ι)} {i : ι} {k : ℕ} {target : K}
    (h : (concurrent K ι less).Run s es) (hs : s.readers i = .searching target (s.mem.cur_height - 1) head)
    (hsearch : Searching less i s k s') : k < kMaxHeight + s'.mem.size := by
  obtain ⟨L, -, levels, hc, -⟩ := concurrent_simulation.run (fun _ _ h => h) h trivial
  obtain ⟨levels', level, x, hc', hreader, hle⟩ := hsearch.le hc hs
  have hheight := hc.list.height
  have hlen := hc'.list.length_lt 0
  have hidx : (head :: levels' 0).idxOf x ≤ (levels' 0).length + 1 := List.idxOf_le_length
  omega

end

/-! ### A key that comes while an iterator is searching -/

section

variable [Inhabited K] [DecidableEq ι] {less : K → K → Bool} {s : Shared K ι} {es : List (Event K ι)}

theorem concurrent_write {node : Option ℕ} {mem : SkipList K} {writer : Writer K}
    (hrun : (concurrent K ι less).Run s es) (hstep : Writer.Step less s.mem s.writer node mem writer) :
    (concurrent K ι less).Run ⟨mem, writer, s.readers⟩
      (es ++ (node.map fun n => Event.inserted n (s.mem.key n)).toList) := by
  cases node with
  | none =>
      rw [Option.map_none, Option.toList_none, List.append_nil]
      exact hrun.hidden (.write hstep)
  | some n => exact hrun.event (.write hstep)

theorem concurrent_read (i : ι) {came : Option (Came K)} {r : Reader K}
    (hrun : (concurrent K ι less).Run s es) (hstep : Reader.Step less s.mem (s.readers i) came r) :
    (concurrent K ι less).Run ⟨s.mem, s.writer, Function.update s.readers i r⟩
      (es ++ (came.map (Event.read i)).toList) := by
  cases came with
  | none =>
      rw [Option.map_none, Option.toList_none, List.append_nil]
      exact hrun.hidden (.read i hstep)
  | some c => exact hrun.event (.read i hstep)

end

/-- The list with one thread that is about to publish the key `5` and one iterator that seeks `target`. -/
def seeking (target : ℕ) : Shared ℕ Unit :=
  ⟨(newNode empty 5).store 1 0 none, .publishing 1 1 (fun _ => head) 0, fun _ => .searching target 0 head⟩

theorem seeking_run (target : ℕ) : (concurrent ℕ Unit fun a b => decide (a < b)).Run (seeking target) [] := by
  have hfind : (empty : SkipList ℕ).findGreaterOrEqual (fun a b => decide (a < b)) 5 =
      some (none, fun _ => head) := congrArg (fun prev => some (none, prev)) (Function.update_eq_self 0 _)
  have hprev : (fun i => if (empty : SkipList ℕ).cur_height ≤ i ∧ i < 1 then head else head) = fun _ => head :=
    funext fun i => ite_self _
  have hstart : (concurrent ℕ Unit fun a b => decide (a < b)).Run ⟨empty, .idle, fun _ => .resting none⟩ [] :=
    .start rfl
  have hplaced := concurrent_write hstart (.place (h := ⟨1, by decide⟩) hfind)
  dsimp only at hplaced
  rw [hprev] at hplaced
  have hallocated := concurrent_write (concurrent_write hplaced .raise) .allocate
  have hlinked := concurrent_write (concurrent_write hallocated (.link Nat.one_pos)) .linked
  have hseek := concurrent_read () hlinked (@Reader.Step.seek ℕ _ _ target none)
  have hreaders : Function.update (fun _ : Unit => Reader.resting none) () (.searching target 0 head) =
      fun _ => .searching target 0 head := funext fun _ => rfl
  rw [seeking, ← hreaders]
  exact hseek

theorem concurrent_run_meanwhile :
    ∃ (s : Shared ℕ Unit) (L : List (ℕ × ℕ)) (levels : ℕ → List ℕ),
      (ordered ℕ Unit fun a b => decide (a < b)).Run L [.inserted 1 5, .read () (.sought 3 (some 1))] ∧
        L.Perm [(1, 5)] ∧ Levels (fun a b => decide (a < b)) s.mem levels ∧
        L = (levels 0).map fun n => (n, s.mem.key n) := by
  have horder : IsStrictWeakOrder ℕ fun a b => decide (a < b) = true := natLess_strictWeakOrder
  have hcome := concurrent_write (seeking_run 3) (.publish Nat.one_pos)
  have hrun : ∃ s : Shared ℕ Unit, (concurrent ℕ Unit fun a b => decide (a < b)).Run s
      [.inserted 1 5, .read () (.sought 3 (some 1))] := ⟨_, concurrent_read () hcome (.sought rfl)⟩
  obtain ⟨s, hrun⟩ := hrun
  obtain ⟨L, levels, hordered, -, hperm, hlist⟩ := concurrent_run hrun
  exact ⟨s, L, levels, hordered, hperm, hlist⟩

theorem search_ends_forward : ∃ s : Shared ℕ Unit,
    Searching (fun a b => decide (a < b)) () (seeking 7) 1 s ∧ 1 < kMaxHeight + s.mem.size := by
  have horder : IsStrictWeakOrder ℕ fun a b => decide (a < b) = true := natLess_strictWeakOrder
  have hcome : Searching (fun a b => decide (a < b)) () (seeking 7) 0 _ :=
    .other .refl (.write (.publish Nat.one_pos)) rfl
  have hforward : Searching (fun a b => decide (a < b)) () (seeking 7) 1 _ := .own hcome (.forward rfl)
  exact ⟨_, hforward, search_ends (seeking_run 7) rfl hforward⟩

end SkipList
end MiniLevelDB
