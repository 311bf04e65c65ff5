import MiniLevelDB.SkipList

/-! # Runs of the skip list

`Towers` adds to `Levels` what a list of insertions has left: node `i + 1` holds the key of insertion
`i` and stands on exactly the levels below its height.  One insertion keeps it (`insert_towers`), so
every run has it (`insertAll_towers`). -/

namespace MiniLevelDB
namespace SkipList

open Linked

variable {K : Type}

/-- `Contains`. -/
def contains (less : K → K → Bool) (s : SkipList K) (key : K) : Option Bool :=
  (s.findGreaterOrEqual less key).map fun (x, _) =>
    match x with
    | none => false
    | some n => !less (s.key n) key && !less key (s.key n)

/-- Insertions one after the other, each with the height of its tower. -/
def insertAll (less : K → K → Bool) : SkipList K → List (K × TowerHeight) → Option (SkipList K)
  | s, [] => some s
  | s, (key, h) :: rest => (s.insert less key h.1).bind fun s => insertAll less s rest

/-- A skip list after `inserted`. -/
structure Towers (less : K → K → Bool) (s : SkipList K) (inserted : List (K × TowerHeight))
    (levels : ℕ → List ℕ) : Prop extends Levels less s levels where
  size_eq : s.size = inserted.length + 1
  node : ∀ i, ∀ hi : i < inserted.length, s.key (i + 1) = (inserted.get ⟨i, hi⟩).1 ∧
    ∀ l, i + 1 ∈ levels l ↔ l < (inserted.get ⟨i, hi⟩).2.1
  height_le : ∀ p ∈ inserted, p.2.1 ≤ s.cur_height
  bottom_perm : (levels 0).Perm (List.range' 1 inserted.length)

variable {less : K → K → Bool} {s : SkipList K} {levels : ℕ → List ℕ}
  {inserted : List (K × TowerHeight)}

theorem empty_towers [Inhabited K] : Towers less (empty : SkipList K) [] fun _ => [] where
  toLevels := empty_levels
  size_eq := rfl
  node := fun _ hi => absurd hi (Nat.not_lt_zero _)
  height_le := by simp
  bottom_perm := List.Perm.refl _

/-! ### The order -/

section Order

variable [IsStrictWeakOrder K fun a b => less a b = true]

instance keyLe_total : Std.Total (KeyLe less) where
  total a b := by
    by_contra h
    obtain ⟨hab, hba⟩ := not_or.mp h
    have hlt : less b a = true := by simpa using hab
    have hgt : less a b = true := by simpa using hba
    exact irrefl_of (fun a b => less a b = true) a (trans_of (fun a b => less a b = true) hgt hlt)

instance keyLe_trans : IsTrans K (KeyLe less) where
  trans a b c hab hbc := by
    have hnot : ∀ {x y : K}, KeyLe less x y → ¬ less y x = true := fun h => by simpa using h
    by_contra hac
    have hca : less c a = true := by simpa using hac
    -- `a` and `b`, and `b` and `c`, can only be incomparable
    have h1 : ¬ less a b = true := fun h =>
      hnot hbc (trans_of (fun a b => less a b = true) hca h)
    have h2 : ¬ less b c = true := fun h =>
      hnot hab (trans_of (fun a b => less a b = true) h hca)
    have hincomp := @IsStrictWeakOrder.incomp_trans K (fun a b => less a b = true) _ a b c
    exact (hincomp ⟨h1, hnot hab⟩ ⟨h2, hnot hbc⟩).2 hca

end Order

variable [IsTrans K (KeyLe less)]

/-- On a sorted level the nodes below a key come first. -/
theorem Levels.below_first (h : Levels less s levels) (key : K) (l : ℕ) :
    (levels l).takeWhile (below less s key) = (levels l).filter (below less s key) := by
  have hsorted := h.level_sorted l
  generalize levels l = L at hsorted
  induction L with
  | nil => rfl
  | cons x L ih =>
      obtain ⟨hx, hL⟩ := List.pairwise_cons.mp hsorted
      by_cases hb : below less s key x = true
      · rw [List.takeWhile_cons_of_pos hb, List.filter_cons_of_pos hb, ih hL]
      · have hrest : L.filter (below less s key) = [] := by
          apply List.filter_eq_nil_iff.mpr
          intro y hy hby
          exact hb (less_of_keyLe (hx y hy) hby)
        rw [List.takeWhile_cons_of_neg hb, List.filter_cons_of_neg hb, hrest]

/-- The first key that is not below decides whether a key is there. -/
theorem match_find?_eq_any {key : K} {L : List K} (hL : L.Pairwise (KeyLe less)) :
    (match L.find? fun k => !less k key with
      | none => false
      | some k => !less k key && !less key k) = L.any fun k => !less k key && !less key k := by
  induction L with
  | nil => rfl
  | cons x L ih =>
      obtain ⟨hx, hL⟩ := List.pairwise_cons.mp hL
      rw [List.any_cons]
      cases hb : less x key with
      | true =>
          rw [List.find?_cons_of_neg (by simp [hb]), ih hL]
          simp
      | false =>
          rw [List.find?_cons_of_pos (by simp [hb])]
          simp only [hb, Bool.not_false, Bool.true_and]
          cases ha : less key x with
          | false => simp
          | true =>
              -- what comes behind is above the key as well
              have habove : ∀ y ∈ L, less key y = true := by
                intro y hy
                by_contra hk
                have hyk : KeyLe less y key := by simpa using hk
                have hxk : KeyLe less x key := IsTrans.trans _ _ _ (hx y hy) hyk
                exact absurd (ha.symm.trans hxk) (by simp)
              have hnone : (L.any fun k => !less k key && !less key k) = false := by
                rw [List.any_eq_false]
                intro y hy
                simp [habove y hy]
              rw [hnone]
              rfl

/-! ### One insertion -/

omit [IsTrans K (KeyLe less)] in
theorem linkNode_size (s : SkipList K) (n : ℕ) (prev : ℕ → ℕ) (h : ℕ) :
    (s.linkNode n prev h).size = s.size ∧ (s.linkNode n prev h).cur_height = s.cur_height := by
  have hfold : ∀ (f : SkipList K → ℕ → SkipList K),
      (∀ s i, (f s i).size = s.size ∧ (f s i).cur_height = s.cur_height) → ∀ (is : List ℕ) (s : SkipList K),
      (is.foldl f s).size = s.size ∧ (is.foldl f s).cur_height = s.cur_height := by
    intro f hf is
    induction is with
    | nil => exact fun s => ⟨rfl, rfl⟩
    | cons i is ih =>
        intro s
        obtain ⟨h1, h2⟩ := ih (f s i)
        exact ⟨h1.trans (hf s i).1, h2.trans (hf s i).2⟩
  unfold linkNode
  obtain ⟨h1, h2⟩ := hfold (fun s i => s.store (prev i) i (some n)) (fun _ _ => ⟨rfl, rfl⟩) (List.range h)
    ((List.range h).foldl (fun s i => s.store n i (s.next (prev i) i)) s)
  obtain ⟨h3, h4⟩ := hfold (fun s i => s.store n i (s.next (prev i) i)) (fun _ _ => ⟨rfl, rfl⟩)
    (List.range h) s
  exact ⟨h1.trans h3, h2.trans h4⟩

omit [IsTrans K (KeyLe less)] in
/-- The size and the height an insertion leaves. -/
theorem insert_size {s' : SkipList K} {key : K} {h : ℕ} (hins : s.insert less key h = some s') :
    s'.size = s.size + 1 ∧ s'.cur_height = max s.cur_height h := by
  rw [SkipList.insert, Option.map_eq_some_iff] at hins
  obtain ⟨⟨found, prev⟩, -, rfl⟩ := hins
  obtain ⟨hsize, hheight⟩ := linkNode_size
    (newNode { s with cur_height := if h > s.cur_height then h else s.cur_height } key) s.size
    (fun i => if s.cur_height ≤ i ∧ i < h then head else prev i) h
  refine ⟨hsize, hheight.trans ?_⟩
  simp only [newNode]
  split <;> omega

variable [Std.Total (KeyLe less)]

/-- **One insertion** adds a node with a tower of its height and leaves the other towers. -/
theorem insert_towers (hs : Towers less s inserted levels) (key : K) (h : TowerHeight) :
    ∃ s' levels', s.insert less key h.1 = some s' ∧ Towers less s' (inserted ++ [(key, h)]) levels' := by
  obtain ⟨s', hins, hkey, hlevels⟩ := insert_levels hs.toLevels key h
  obtain ⟨hsize, hheight⟩ := insert_size hins
  have hmem : ∀ l x, x ∈ insertLevels less s'.key s.size h.1 levels l ↔
      l < h.1 ∧ x = s.size ∨ x ∈ levels l := by
    intro l x
    unfold insertLevels
    split
    · simp [List.mem_orderedInsert, *]
    · simp [*]
  refine ⟨s', _, hins, hlevels, ?_, ?_, ?_, ?_⟩
  · rw [hsize, hs.size_eq, List.length_append, List.length_singleton]
  · intro i hi
    rw [List.length_append, List.length_singleton] at hi
    rcases Nat.lt_or_eq_of_le (Nat.le_of_lt_succ hi) with hlt | rfl
    · have hne : i + 1 ≠ s.size := by rw [hs.size_eq]; omega
      obtain ⟨hold, htower⟩ := hs.node i hlt
      have hget : (inserted ++ [(key, h)]).get ⟨i, by simpa using hi⟩ = inserted.get ⟨i, hlt⟩ :=
        List.getElem_append_left hlt
      rw [hget]
      constructor
      · rw [hkey, Function.update_of_ne hne, hold]
      · intro l
        rw [hmem, htower]
        simp [hne]
    · have hget : (inserted ++ [(key, h)]).get ⟨inserted.length, by simp⟩ = (key, h) := by simp
      rw [hget, ← hs.size_eq]
      constructor
      · rw [hkey, Function.update_self]
      · intro l
        rw [hmem]
        have hfresh : s.size ∉ levels l := fun hx => hs.fresh l (List.mem_cons_of_mem _ hx)
        simp [hfresh]
  · intro p hp
    rw [hheight]
    rcases List.mem_append.mp hp with hp | hp
    · exact (hs.height_le p hp).trans (le_max_left _ _)
    · rw [List.mem_singleton.mp hp]
      exact le_max_right _ _
  · have hbottom : insertLevels less s'.key s.size h.1 levels 0 =
        (levels 0).orderedInsert (NodeLe less s'.key) s.size := if_pos h.2.1
    have hrange : List.range' 1 (inserted ++ [(key, h)]).length =
        List.range' 1 inserted.length ++ [s.size] := by
      rw [List.length_append, List.length_singleton, List.range'_concat, hs.size_eq]
      simp [Nat.add_comm]
    rw [hbottom, hrange]
    refine (List.perm_orderedInsert _ _ _).trans ?_
    exact (hs.bottom_perm.cons s.size).trans (List.perm_append_singleton _ _).symm

/-- **Insertions one after the other.** -/
theorem insertAll_spec (rest : List (K × TowerHeight)) (hs : Towers less s inserted levels) :
    ∃ s' levels', insertAll less s rest = some s' ∧ Towers less s' (inserted ++ rest) levels' := by
  induction rest generalizing s inserted levels with
  | nil => exact ⟨s, levels, rfl, by rwa [List.append_nil]⟩
  | cons p rest ih =>
      obtain ⟨key, h⟩ := p
      obtain ⟨s₁, levels₁, hins, hs₁⟩ := insert_towers hs key h
      obtain ⟨s', levels', hrest, hs'⟩ := ih hs₁
      refine ⟨s', levels', ?_, by simpa using hs'⟩
      rw [insertAll, hins]
      exact hrest

/-! ### Main result -/

/-- **A skip list after any insertions**, for any strict weak order and any heights of the towers.
The levels are sorted chains, each a sublist of the one below, and the towers are those of the nodes;
the bottom level holds the inserted keys.  `FindGreaterOrEqual` finds the first node that is not
below, with the last node below in `prev` on each level in use; `Contains` and `Seek` do on the sorted
list of the keys what their names say. -/
theorem insertAll_towers [Inhabited K] (less : K → K → Bool)
    [IsStrictWeakOrder K fun a b => less a b = true] (inserted : List (K × TowerHeight)) :
    ∃ s levels, insertAll less empty inserted = some s ∧ Towers less s inserted levels ∧
      (∀ l, (levels l).Pairwise fun a b => KeyLe less (s.key a) (s.key b)) ∧
      ((levels 0).map s.key).Perm (inserted.map Prod.fst) ∧
      s.toList = some ((levels 0).map s.key) ∧
      ∀ key,
        (∃ prev, s.findGreaterOrEqual less key =
            some ((levels 0).find? fun n => !less (s.key n) key, prev) ∧
          ∀ l < s.cur_height, prev l =
            ((levels l).filter fun n => less (s.key n) key).getLastD head) ∧
        s.contains less key = some (((levels 0).map s.key).any fun k => !less k key && !less key k) ∧
        ∃ node, s.seek less key = some node ∧
          s.keysFrom s.size node = some (((levels 0).map s.key).dropWhile fun k => less k key) := by
  obtain ⟨s, levels, hrun, hs⟩ := @insertAll_spec K less _ _ _ _ _ inserted empty_towers
  rw [List.nil_append] at hs
  refine ⟨s, levels, hrun, hs, hs.level_sorted, ?_, toList_represents ⟨levels, hs.toLevels, rfl⟩, ?_⟩
  · have hkeys : (List.range' 1 inserted.length).map s.key = inserted.map Prod.fst := by
      apply List.ext_getElem (by simp)
      intro i hi _
      rw [List.length_map, List.length_range'] at hi
      have hnode := (hs.node i hi).1
      simpa [Nat.add_comm] using hnode
    exact hkeys ▸ hs.bottom_perm.map s.key
  · intro key
    obtain ⟨prev, hfind, hprev⟩ := findGreaterOrEqual_spec hs.toLevels key
    have hfirst : (levels 0).find? (fun n => !less (s.key n) key) =
        ((levels 0).dropWhile (below less s key)).head? := by
      rw [List.find?_eq_head?_dropWhile_not]
      simp only [Bool.not_not]
    refine ⟨⟨prev, hfirst ▸ hfind, fun l hl => ?_⟩, ?_, ?_⟩
    · rw [hprev l hl, hs.below_first]
    · have hany := @match_find?_eq_any _ less _ key _ (List.pairwise_map.mpr hs.sorted)
      rw [← hany, List.find?_map, contains, hfind, ← hfirst]
      have hcomp : ((fun k => !less k key) ∘ s.key) = fun n => !less (s.key n) key := rfl
      rw [hcomp, Option.map_some]
      cases (levels 0).find? fun n => !less (s.key n) key <;> rfl
    · refine ⟨_, by rw [seek, hfind]; rfl, ?_⟩
      rw [List.dropWhile_map]
      exact hs.keysFrom_suffix (List.takeWhile_append_dropWhile).symm

theorem natLess_strictWeakOrder : IsStrictWeakOrder ℕ fun a b => decide (a < b) = true where
  irrefl a := by simp
  trans a b c hab hbc := by
    simp only [decide_eq_true_eq] at *
    omega
  incomp_trans a b c hab hbc := by
    simp only [decide_eq_true_eq] at *
    omega

theorem insertAll_towers_equal_keys :
    ∃ s keys, insertAll (fun a b : ℕ => decide (a < b)) empty
        [(2, ⟨2, by decide⟩), (1, ⟨1, by decide⟩), (2, ⟨12, by decide⟩)] = some s ∧
      s.toList = some keys ∧ keys.Perm [2, 1, 2] := by
  have horder : IsStrictWeakOrder ℕ fun a b => decide (a < b) = true := natLess_strictWeakOrder
  obtain ⟨s, levels, hrun, -, -, hperm, hlist, -⟩ := insertAll_towers (fun a b : ℕ => decide (a < b))
    [(2, ⟨2, by decide⟩), (1, ⟨1, by decide⟩), (2, ⟨12, by decide⟩)]
  exact ⟨s, _, hrun, hlist, hperm⟩

end SkipList
end MiniLevelDB
