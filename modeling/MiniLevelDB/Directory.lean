import MiniLevelDB.FileName

/-! # Directories

`Dir dbname fs l` says that the directory `dbname` holds the files `l`, with these contents and in
the order of their numbers, and no others that the database recognises.  The lemmas say what the
operations of the code make of it; they only ever add files above all numbers in use. -/

namespace MiniLevelDB

/-- A file and its contents. -/
abbrev FileEntry := FileInfo × Bytes

/-- The directory `dbname` holds the files `l`, and no others that the database recognises. -/
structure Dir (dbname : Bytes) (fs : FileSystem) (l : List FileEntry) : Prop where
  lists : Lists dbname fs (l.map Prod.fst)
  get : ∀ p ∈ l, fs.get (fileName dbname p.1) = p.2

/-- The numbers and contents of the files of one type. -/
def ofType (type : FileType) (l : List FileEntry) : List (ℕ × Bytes) :=
  l.filterMap fun p => if p.1.type = type then some (p.1.number, p.2) else none

/-- Another content of the file `f`. -/
def setContent (f : FileInfo) (b : Bytes) (l : List FileEntry) : List FileEntry :=
  l.map fun p => if p.1 = f then (f, b) else p

/-- The files without `f`. -/
def without (f : FileInfo) (l : List FileEntry) : List FileEntry := l.filter fun p => p.1 ≠ f

/-! ### Files of one type -/

@[simp] theorem ofType_append (type : FileType) (l l' : List FileEntry) :
    ofType type (l ++ l') = ofType type l ++ ofType type l' := List.filterMap_append

theorem mem_ofType {type : FileType} {l : List FileEntry} {n : ℕ} {b : Bytes} :
    (n, b) ∈ ofType type l ↔ (⟨n, type⟩, b) ∈ l := by
  rw [ofType, List.mem_filterMap]
  constructor
  · rintro ⟨⟨⟨number, type'⟩, b'⟩, hp, h⟩
    simp only [Option.ite_none_right_eq_some, Option.some.injEq, Prod.mk.injEq] at h
    obtain ⟨rfl, rfl, rfl⟩ := h
    exact hp
  · intro h
    exact ⟨_, h, if_pos rfl⟩

@[simp] theorem ofType_singleton (type : FileType) (p : FileEntry) :
    ofType type [p] = if p.1.type = type then [(p.1.number, p.2)] else [] := by
  rw [ofType, List.filterMap_cons]
  split <;> simp_all

theorem ofType_setContent_ne {type : FileType} {f : FileInfo} (h : f.type ≠ type) (b : Bytes)
    (l : List FileEntry) : ofType type (setContent f b l) = ofType type l := by
  rw [ofType, setContent, List.filterMap_map]
  refine List.filterMap_congr fun p _ => ?_
  by_cases hp : p.1 = f
  · simp [hp, h]
  · simp [hp]

theorem ofType_without_ne {type : FileType} {f : FileInfo} (h : f.type ≠ type) (l : List FileEntry) :
    ofType type (without f l) = ofType type l := by
  rw [ofType, without, List.filterMap_filter]
  refine List.filterMap_congr fun p _ => ?_
  by_cases hp : p.1 = f
  · simp [hp, h]
  · simp [hp]

/-- The only file of its type. -/
theorem ofType_setContent {f : FileInfo} {l : List FileEntry} {b : Bytes}
    (h : ofType f.type l = [(f.number, b)]) (b' : Bytes) :
    ofType f.type (setContent f b' l) = [(f.number, b')] := by
  have hmap : ofType f.type (setContent f b' l) =
      (ofType f.type l).map fun p => if p.1 = f.number then (f.number, b') else p := by
    rw [ofType, ofType, setContent, List.filterMap_map, List.map_filterMap]
    refine List.filterMap_congr fun p _ => ?_
    obtain ⟨⟨number, type⟩, c⟩ := p
    obtain ⟨number', type'⟩ := f
    by_cases ht : type = type'
    · by_cases hn : number = number' <;> simp [ht, hn]
    · simp [ht]
  rw [hmap, h]
  simp

theorem ofType_without {f : FileInfo} {l : List FileEntry} {b : Bytes}
    (h : ofType f.type l = [(f.number, b)]) : ofType f.type (without f l) = [] := by
  rw [List.eq_nil_iff_forall_not_mem]
  rintro ⟨n, c⟩ hmem
  have hmem := List.mem_filter.mp (mem_ofType.mp hmem)
  have hone : (n, c) ∈ ofType f.type l := mem_ofType.mpr hmem.1
  rw [h] at hone
  obtain ⟨rfl, -⟩ := Prod.mk.inj (List.mem_singleton.mp hone)
  exact absurd hmem.2 (by simp)

@[simp] theorem map_fst_setContent (f : FileInfo) (b : Bytes) (l : List FileEntry) :
    (setContent f b l).map Prod.fst = l.map Prod.fst := by
  rw [setContent, List.map_map]
  refine List.map_congr_left fun p _ => ?_
  by_cases hp : p.1 = f <;> simp [hp]

/-! ### Operations on a directory -/

namespace Dir

variable {dbname : Bytes} {fs : FileSystem} {l : List FileEntry} {f : FileInfo}

theorem number_lt (h : Dir dbname fs l) {p : FileEntry} (hp : p ∈ l) : p.1.number < 2 ^ 64 :=
  h.lists.lt p.1 (List.mem_map_of_mem hp)

theorem mem_iff (h : Dir dbname fs l) (hf : f.number < 2 ^ 64) :
    fileName dbname f ∈ fs ↔ ∃ b, (f, b) ∈ l := by
  rw [h.lists.fileName_mem_iff hf, List.mem_map]
  constructor
  · rintro ⟨⟨f, b⟩, hp, rfl⟩
    exact ⟨b, hp⟩
  · rintro ⟨b, hp⟩
    exact ⟨(f, b), hp, rfl⟩

theorem mem (h : Dir dbname fs l) {b : Bytes} (hp : (f, b) ∈ l) : fileName dbname f ∈ fs :=
  (h.mem_iff (h.number_lt hp)).mpr ⟨b, hp⟩

theorem get_eq (h : Dir dbname fs l) {b : Bytes} (hp : (f, b) ∈ l) :
    fs.get (fileName dbname f) = b := h.get _ hp

theorem sorted (h : Dir dbname fs l) : l.Pairwise fun p q => p.1.number < q.1.number := by
  have hsorted := h.lists.sorted
  rwa [List.pairwise_map] at hsorted

/-- What a path of the directory has to be for a file to be there. -/
theorem path_eq_iff {name : Bytes} : dbname ++ ascii "/" ++ name = fileName dbname f ↔ name = baseName f := by
  rw [fileName, List.append_cancel_left_eq]

theorem baseName_inj {g : FileInfo} (hf : f.number < 2 ^ 64) (hg : g.number < 2 ^ 64)
    (h : baseName f = baseName g) : f = g :=
  @fileName_inj [] f g hf hg (by rw [fileName, fileName, h])

/-- A file is created above all others. -/
theorem insert_new (h : Dir dbname fs l) (hf : f.number < 2 ^ 64)
    (hnew : ∀ p ∈ l, p.1.number < f.number) (b : Bytes) :
    Dir dbname (fs.insert (fileName dbname f) b) (l ++ [(f, b)]) := by
  refine ⟨⟨?_, ?_, ?_⟩, ?_⟩
  · rw [List.map_append, List.pairwise_append]
    refine ⟨h.lists.sorted, List.pairwise_singleton _ _, ?_⟩
    intro a ha c hc
    obtain ⟨p, hp, rfl⟩ := List.mem_map.mp ha
    obtain rfl : c = f := by simpa using hc
    exact hnew p hp
  · intro g hg
    rcases List.mem_append.mp (List.map_append ▸ hg) with hg | hg
    · exact h.lists.lt g hg
    · obtain rfl : g = f := by simpa using hg
      exact hf
  · intro name hname hsome
    rw [AList.mem_insert, path_eq_iff, h.lists.mem_iff name hname hsome, List.map_append]
    simp only [List.mem_append, List.map_cons, List.map_nil, List.mem_singleton]
    constructor
    · rintro (rfl | ⟨g, hg, rfl⟩)
      · exact ⟨f, Or.inr rfl, rfl⟩
      · exact ⟨g, Or.inl hg, rfl⟩
    · rintro ⟨g, hg | rfl, rfl⟩
      · exact Or.inr ⟨g, hg, rfl⟩
      · exact Or.inl rfl
  · intro p hp
    rcases List.mem_append.mp hp with hp | hp
    · have hne : fileName dbname p.1 ≠ fileName dbname f := fun heq =>
        absurd (congrArg FileInfo.number (fileName_inj (h.number_lt hp) hf heq)) (hnew p hp).ne
      rw [FileSystem.get_insert_ne fs b hne]
      exact h.get p hp
    · obtain rfl := List.mem_singleton.mp hp
      exact FileSystem.get_insert _ _ _

/-- A file gets another content. -/
theorem set (h : Dir dbname fs l) {b : Bytes} (hp : (f, b) ∈ l) (b' : Bytes) :
    Dir dbname (fs.insert (fileName dbname f) b') (setContent f b' l) := by
  refine ⟨⟨?_, ?_, ?_⟩, ?_⟩
  · rw [map_fst_setContent]
    exact h.lists.sorted
  · rw [map_fst_setContent]
    exact h.lists.lt
  · intro name hname hsome
    rw [map_fst_setContent, AList.mem_insert, path_eq_iff, h.lists.mem_iff name hname hsome]
    constructor
    · rintro (rfl | hg)
      · exact ⟨f, List.mem_map_of_mem hp, rfl⟩
      · exact hg
    · exact Or.inr
  · intro p hmem
    obtain ⟨q, hq, rfl⟩ := List.mem_map.mp hmem
    by_cases hqf : q.1 = f
    · rw [if_pos hqf]
      exact FileSystem.get_insert _ _ _
    · have hne : fileName dbname q.1 ≠ fileName dbname f := fun heq =>
        hqf (fileName_inj (h.number_lt hq) (h.number_lt hp) heq)
      rw [if_neg hqf, FileSystem.get_insert_ne fs b' hne]
      exact h.get q hq

/-- A file is removed. -/
theorem erase (h : Dir dbname fs l) (hf : f.number < 2 ^ 64) :
    Dir dbname (fs.erase (fileName dbname f)) (without f l) := by
  have hsub : (without f l).Sublist l := List.filter_sublist
  refine ⟨⟨h.lists.sorted.sublist (hsub.map _), fun g hg => h.lists.lt g ((hsub.map _).subset hg), ?_⟩,
    ?_⟩
  · intro name hname hsome
    rw [AList.mem_erase, ne_eq, path_eq_iff, h.lists.mem_iff name hname hsome]
    constructor
    · rintro ⟨hne, g, hg, rfl⟩
      obtain ⟨p, hp, rfl⟩ := List.mem_map.mp hg
      refine ⟨p.1, List.mem_map_of_mem (List.mem_filter.mpr ⟨hp, ?_⟩), rfl⟩
      exact decide_eq_true fun heq => hne (congrArg baseName heq)
    · rintro ⟨g, hg, rfl⟩
      obtain ⟨p, hp, rfl⟩ := List.mem_map.mp hg
      obtain ⟨hp, hne⟩ := List.mem_filter.mp hp
      exact ⟨fun heq => of_decide_eq_true hne (baseName_inj (h.number_lt hp) hf heq), p.1,
        List.mem_map_of_mem hp, rfl⟩
  · intro p hp
    obtain ⟨hp, hne⟩ := List.mem_filter.mp hp
    have hne : fileName dbname p.1 ≠ fileName dbname f := fun heq =>
      of_decide_eq_true hne (fileName_inj (h.number_lt hp) hf heq)
    rw [FileSystem.get_erase_ne fs hne]
    exact h.get p hp

theorem without_of_lt (hnew : ∀ p ∈ l, p.1.number < f.number) (b : Bytes) :
    without f (l ++ [(f, b)]) = l := by
  have hl : l.filter (fun p => decide (p.1 ≠ f)) = l :=
    List.filter_eq_self.mpr fun p hp => decide_eq_true fun heq => (hnew p hp).ne (congrArg _ heq)
  rw [without, List.filter_append, hl]
  simp

/-- The newest file is renamed to another type. -/
theorem rename (h : Dir dbname fs (l ++ [(f, b)])) (hnew : ∀ p ∈ l, p.1.number < f.number)
    (type : FileType) :
    Dir dbname ((fs.erase (fileName dbname f)).insert (fileName dbname ⟨f.number, type⟩)
      (fs.get (fileName dbname f))) (l ++ [(⟨f.number, type⟩, b)]) := by
  have hmem : (f, b) ∈ l ++ [(f, b)] := List.mem_append_right _ (List.mem_singleton.mpr rfl)
  have herase := h.erase (h.number_lt hmem)
  rw [without_of_lt hnew] at herase
  rw [h.get_eq hmem]
  exact herase.insert_new (f := ⟨f.number, type⟩) (h.number_lt hmem) hnew b

/-- The files of a directory are determined. -/
theorem unique {l' : List FileEntry} (h : Dir dbname fs l) (h' : Dir dbname fs l') : l = l' := by
  have hfst : l.map Prod.fst = l'.map Prod.fst := h.lists.sorted_entries.symm.trans h'.lists.sorted_entries
  have hlen : l.length = l'.length := by simpa using congrArg List.length hfst
  refine List.ext_getElem hlen fun i hi hi' => ?_
  have h1 : l[i].1 = l'[i].1 := by
    have := congrArg (·[i]?) hfst
    simpa [hi, hi'] using this
  have h2 := h.get _ (List.getElem_mem hi)
  have h2' := h'.get _ (List.getElem_mem hi')
  rw [h1, h2'] at h2
  exact Prod.ext h1 h2.symm

theorem empty : Dir dbname ∅ [] := by
  refine ⟨⟨List.Pairwise.nil, fun f hf => absurd hf List.not_mem_nil, fun name _ _ => ?_⟩,
    fun p hp => absurd hp List.not_mem_nil⟩
  simp

end Dir
end MiniLevelDB
