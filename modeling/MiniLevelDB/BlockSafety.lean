import MiniLevelDB.BlockMoves

/-! # What the iterator of a block reads

The lengths of an entry and the number of restart points are taken from the contents and are only
partly checked.  The reads stay inside exactly if the entries met on the way do (`EntryFits`), and
the constructor's if the size of the restart array is a number of 32 bits (`CountFits`). -/

namespace MiniLevelDB
namespace Block

/-! ### The constructor -/

theorem forall₂_of_mapM_ok {α β ε : Type} {f : α → Except ε β} :
    ∀ {l : List α} {r : List β}, l.mapM f = .ok r → List.Forall₂ (fun a y => f a = .ok y) l r
  | [], r, h => by
      cases h
      exact .nil
  | a :: l, r, h => by
      rw [List.mapM_cons] at h
      cases hy : f a with
      | error e => rw [hy] at h; cases h
      | ok y =>
          cases hr : l.mapM f with
          | error e => rw [hy, hr] at h; cases h
          | ok ys =>
              rw [hy, hr] at h
              cases h
              exact .cons hy (forall₂_of_mapM_ok hr)

/-- The number of restart points that is written at the end of the contents. -/
def storedCount (contents : Bytes) : ℕ := decodeFixed32 (contents.drop (contents.length - 4))

/-- The restart points the constructor reads lie inside the contents. -/
def CountFits (contents : Bytes) : Prop :=
  contents.length < 4 ∨ contents.length < 4 + storedCount contents * 4 % 2 ^ 32 ∨
    storedCount contents < 2 ^ 30 ∨ (storedCount contents + 1) % 2 ^ 30 = 0

theorem storedCount_lt (contents : Bytes) : storedCount contents < 2 ^ 32 := decodeFixed_lt 4 _

/-- The constructor reads inside the contents exactly if the restart points lie there. -/
theorem new_ok_iff (contents : Bytes) : (∃ b, Block.new contents = .ok b) ↔ CountFits contents := by
  have hcount := storedCount_lt contents
  unfold CountFits Block.new
  rw [← storedCount]
  generalize storedCount contents = count at hcount
  by_cases hlen : contents.length < 4
  · simp only [hlen, if_true, true_or, iff_true]
    exact ⟨_, rfl⟩
  by_cases hsize : contents.length < 4 + count * 4 % 2 ^ 32
  · simp only [hlen, hsize, if_true, if_false, true_or, or_true, iff_true]
    exact ⟨_, rfl⟩
  simp only [hlen, hsize, if_false, false_or]
  constructor
  · rintro ⟨b, hb⟩
    by_contra hc
    -- the read of the restart point with this number leaves the contents
    have hmem : 2 ^ 30 - 1 ∈ List.range count := List.mem_range.mpr (by omega)
    cases hm : (List.range count).mapM fun i =>
        readFixed32 contents (contents.length - 4 - count * 4 % 2 ^ 32 + i * 4 % 2 ^ 32) with
    | error e => rw [hm] at hb; cases hb
    | ok os =>
        obtain ⟨i, hi, hget⟩ := List.getElem_of_mem hmem
        have hall := (List.forall₂_iff_get.mp (forall₂_of_mapM_ok hm))
        have hread := hall.2 i hi (hall.1 ▸ hi)
        simp only [List.get_eq_getElem, hget, readFixed32] at hread
        split_ifs at hread
        omega
  · intro hc
    have hread : ∀ i ∈ List.range count,
        readFixed32 contents (contents.length - 4 - count * 4 % 2 ^ 32 + i * 4 % 2 ^ 32) =
          .ok (decodeFixed32 (contents.drop
            (contents.length - 4 - count * 4 % 2 ^ 32 + i * 4 % 2 ^ 32))) := by
      intro i hi
      have hi := List.mem_range.mp hi
      exact if_pos (by omega)
    rw [mapM_ok hread]
    exact ⟨_, rfl⟩

/-- What the constructor makes of any contents. -/
theorem new_bounds {contents : Bytes} {b : Block} (h : Block.new contents = .ok b) :
    b.contents = contents ∧ b.data_size ≤ contents.length ∧ b.restarts.length < 2 ^ 32 ∧
      ∀ o ∈ b.restarts, o < 2 ^ 32 := by
  have hcount := storedCount_lt contents
  unfold Block.new at h
  rw [← storedCount] at h
  dsimp only at h
  split_ifs at h with hlen hsize
  · cases h
    simp
  · cases h
    simp
  · cases hm : (List.range (storedCount contents)).mapM fun i => readFixed32 contents
        (contents.length - 4 - storedCount contents * 4 % 2 ^ 32 + i * 4 % 2 ^ 32) with
    | error e => rw [hm] at h; cases h
    | ok os =>
        rw [hm] at h
        cases h
        have hall := forall₂_of_mapM_ok hm
        refine ⟨rfl, (Nat.sub_le _ _).trans (Nat.sub_le _ _), ?_, ?_⟩
        · rw [← hall.length_eq, List.length_range]
          exact hcount
        · intro o ho
          obtain ⟨i, hi, rfl⟩ := List.getElem_of_mem ho
          have hread := (List.forall₂_iff_get.mp hall).2 i (hall.length_eq ▸ hi) hi
          simp only [List.get_eq_getElem, readFixed32] at hread
          split_ifs at hread
          rw [← Except.ok.inj hread]
          exact decodeFixed_lt 4 _

/-! ### Decoding an entry -/

variable (b : Block)

/-- The entry area from an offset on. -/
def area (p : ℕ) : Bytes := (b.contents.take b.data_size).drop p

/-- The key delta of the entry at an offset lies in the entry area. -/
def KeyFits (p : ℕ) : Prop :=
  match decodeLengths (b.area p) with
  | none => True
  | some (_, unshared, _, input) => unshared ≤ input.length

/-- The key delta and the value of the entry at an offset lie in the entry area. -/
def EntryFits (p : ℕ) : Prop :=
  match decodeLengths (b.area p) with
  | none => True
  | some (_, unshared, value_len, input) => unshared + value_len ≤ input.length

instance (p : ℕ) : Decidable (b.KeyFits p) :=
  match h : decodeLengths (b.area p) with
  | none => isTrue (by simp [KeyFits, h])
  | some (_, unshared, _, input) => decidable_of_iff (unshared ≤ input.length) (by simp [KeyFits, h])

variable {b}

theorem EntryFits.keyFits {p : ℕ} (h : b.EntryFits p) : b.KeyFits p := by
  unfold EntryFits at h
  unfold KeyFits
  split
  · trivial
  · next hd =>
      rw [hd] at h
      exact (Nat.le_add_right _ _).trans h

theorem area_length_le (p : ℕ) : (b.area p).length ≤ b.data_size - p := by
  rw [area, List.length_drop, List.length_take]
  omega

theorem decodeLengths_area {p shared unshared value_len : ℕ} {input : Bytes}
    (h : decodeLengths (b.area p) = some (shared, unshared, value_len, input)) :
    p + input.length + 3 ≤ b.data_size := by
  have harea := @area_length_le b p
  unfold decodeLengths at h
  split at h
  · cases h
  next h1 =>
    split at h
    · cases h
    next h2 =>
      split at h
      · cases h
      next h3 =>
        cases h
        obtain ⟨used1, hne1, e1⟩ := getVarintPtr_suffix h1
        obtain ⟨used2, hne2, rfl⟩ := getVarintPtr_suffix h2
        obtain ⟨used3, hne3, rfl⟩ := getVarintPtr_suffix h3
        rw [e1] at harea
        have := List.length_pos_of_ne_nil hne1
        have := List.length_pos_of_ne_nil hne2
        have := List.length_pos_of_ne_nil hne3
        simp only [List.length_append] at harea
        omega

/-- The iterator a call of `DecodeEntry` leaves that has found an entry. -/
def decoded (b : Block) (it : Iterator) (shared unshared value_len : ℕ) (input : Bytes) : Iterator :=
  { current := (it.current + (b.data_size - (input.length - unshared) - it.current + value_len)
      % 2 ^ 32) % 2 ^ 32
    restart_index := it.restart_index
    key := resizeBytes it.key shared ++ input.take unshared
    value_offset := b.data_size - (input.length - unshared)
    value_size := value_len
    valid := true }

/-- What `DecodeEntry` can do. -/
theorem decodeEntry_eq (it : Iterator) :
    b.decodeEntry it = match decodeLengths (b.area it.current) with
      | none => .ok { it with valid := false }
      | some (shared, unshared, value_len, input) =>
          if unshared > input.length then .error .outOfBounds
          else .ok (b.decoded it shared unshared value_len input) := by
  unfold decodeEntry
  split_ifs with hge
  · have hnil : b.area it.current = [] :=
      List.eq_nil_of_length_eq_zero (by have := @area_length_le b it.current; omega)
    rw [hnil]
    rfl
  · rfl

theorem decodeEntry_ok {it it' : Iterator} (h : b.decodeEntry it = .ok it') :
    it' = { it with valid := false } ∨
      ∃ shared unshared value_len input,
        decodeLengths (b.area it.current) = some (shared, unshared, value_len, input) ∧
          unshared ≤ input.length ∧ it' = b.decoded it shared unshared value_len input := by
  rw [decodeEntry_eq] at h
  split at h
  · cases h
    exact .inl rfl
  · next shared unshared value_len input hd =>
      split_ifs at h with hgt
      cases h
      exact .inr ⟨shared, unshared, value_len, input, hd, not_lt.mp hgt, rfl⟩

/-- `DecodeEntry` reads inside the entry area exactly if the key delta lies there. -/
theorem decodeEntry_ok_iff (it : Iterator) :
    (∃ it', b.decodeEntry it = .ok it') ↔ b.KeyFits it.current := by
  rw [decodeEntry_eq]
  unfold KeyFits
  split
  · exact ⟨fun _ => trivial, fun _ => ⟨_, rfl⟩⟩
  · next unshared _ input hd =>
      split_ifs with hgt
      · constructor
        · rintro ⟨it', h⟩
          cases h
        · intro h
          exact absurd hgt (not_lt.mpr h)
      · exact ⟨fun _ => not_lt.mp hgt, fun _ => ⟨_, rfl⟩⟩

/-- The value the iterator shows lies in the entry area. -/
def ValueInside (b : Block) (it : Iterator) : Prop :=
  it.valid = true → it.value_offset + it.value_size ≤ b.data_size

/-- A decoded entry shows a value inside the entry area exactly if the entry lies there. -/
theorem valueInside_iff {it it' : Iterator} (h : b.decodeEntry it = .ok it') :
    b.ValueInside it' ↔ b.EntryFits it.current := by
  rw [decodeEntry_eq] at h
  unfold EntryFits
  split at h
  · cases h
    simp [ValueInside]
  · next hd =>
      split_ifs at h with hgt
      cases h
      have := decodeLengths_area hd
      simp only [ValueInside, decoded, true_implies]
      omega

/-! ### Every run -/

/-- The restart points `Seek` still looks up are there: its right end may have wrapped below zero. -/
def Ranged (b : Block) : Moment → Prop
  | (some (.bisect _ left mid right), _) =>
      left < b.restarts.length ∧ mid < b.restarts.length ∧
        (right < b.restarts.length ∨ right = 2 ^ 32 - 1)
  | _ => True

theorem bisect_ranged (hn : b.restarts.length < 2 ^ 32) {left right : ℕ}
    (hl : left < b.restarts.length) (hr : right < b.restarts.length ∨ right = 2 ^ 32 - 1)
    (target : Bytes) (it : Iterator) :
    ∃ m, b.bisect target left right it = .ok m ∧ b.Ranged m ∧ b.ValueInside m.2 = b.ValueInside it := by
  unfold bisect
  split_ifs with hlt
  · have hmid : (left + right + 1) % 2 ^ 32 / 2 < b.restarts.length := by omega
    have hget : b.restart ((left + right + 1) % 2 ^ 32 / 2) =
        .ok (b.restarts.get ⟨_, hmid⟩) := by
      rw [restart, List.getElem?_eq_getElem hmid]
      rfl
    dsimp only
    rw [hget]
    exact ⟨_, rfl, ⟨hl, hmid, hr⟩, rfl⟩
  · have hget : b.restart left = .ok b.restarts[left] := by
      rw [restart, List.getElem?_eq_getElem hl]
    rw [hget]
    exact ⟨_, rfl, trivial, rfl⟩

theorem scan_ranged (target : Bytes) (it : Iterator) :
    b.Ranged (scan target it) ∧ (scan target it).2 = it := by
  unfold scan
  split_ifs
  · exact ⟨trivial, rfl⟩
  · exact ⟨trivial, rfl⟩

theorem valueInside_of_invalid (it : Iterator) : b.ValueInside { it with valid := false } :=
  fun h => nomatch h

/-- A call looks up restart points that are there, and shows no new value before it decodes. -/
theorem start_ranged (hn : b.restarts.length < 2 ^ 32) (c : Call) (it : Iterator) :
    ∃ m, b.start c it = .ok m ∧ b.Ranged m ∧ (b.ValueInside it → b.ValueInside m.2) := by
  cases c with
  | seekToFirst =>
      simp only [start]
      cases b.restarts with
      | nil => exact ⟨_, rfl, trivial, fun _ => valueInside_of_invalid it⟩
      | cons o os => exact ⟨_, rfl, trivial, id⟩
  | seek target =>
      simp only [start]
      split_ifs with hr
      · exact ⟨_, rfl, trivial, fun _ => valueInside_of_invalid it⟩
      · have hpos := List.length_pos_of_ne_nil hr
        obtain ⟨m, h1, h2, h3⟩ := bisect_ranged hn hpos (.inl (Nat.sub_lt hpos Nat.one_pos)) target it
        exact ⟨m, h1, h2, h3.mpr⟩
  | next =>
      refine ⟨_, rfl, ?_⟩
      split_ifs
      · exact ⟨trivial, id⟩
      · exact ⟨trivial, id⟩

theorem advanceRestart_value (it : Iterator) :
    (b.advanceRestart it).value_offset = it.value_offset ∧
      (b.advanceRestart it).value_size = it.value_size ∧
        (b.advanceRestart it).valid = it.valid ∧ (b.advanceRestart it).current = it.current := by
  induction it using advanceRestart.induct b with
  | case1 it h hge ih =>
      rw [advanceRestart, dif_pos h, if_pos hge]
      exact ih
  | case2 it h hge =>
      rw [advanceRestart, dif_pos h, if_neg hge]
      exact ⟨rfl, rfl, rfl, rfl⟩
  | case3 it h =>
      rw [advanceRestart, dif_neg h]
      exact ⟨rfl, rfl, rfl, rfl⟩

theorem valueInside_advanceRestart (it : Iterator) :
    b.ValueInside (b.advanceRestart it) = b.ValueInside it := by
  obtain ⟨ho, hs, hv, -⟩ := @advanceRestart_value b it
  rw [ValueInside, ho, hs, hv, ValueInside]

/-- What follows a decoded entry looks up restart points that are there, and shows its value. -/
theorem resume_ranged (hn : b.restarts.length < 2 ^ 32) {p : Pending} {it it' : Iterator}
    (h : b.Ranged (some p, it)) :
    ∃ m, b.resume p it' = .ok m ∧ b.Ranged m ∧ b.ValueInside m.2 = b.ValueInside it' := by
  cases p with
  | seekToFirst => exact ⟨_, rfl, trivial, rfl⟩
  | next => exact ⟨_, rfl, trivial, valueInside_advanceRestart it'⟩
  | bisect target left mid right =>
      obtain ⟨hl, hm, hr⟩ := h
      simp only [resume]
      split_ifs
      · exact bisect_ranged hn hm hr target it'
      · exact bisect_ranged hn hl (by omega) target it'
  | land target =>
      have hs := @scan_ranged b target it'
      exact ⟨_, rfl, hs.1, by rw [hs.2]⟩
  | scan target =>
      have hs := @scan_ranged b target (b.advanceRestart it')
      exact ⟨_, rfl, hs.1, by rw [hs.2]; exact valueInside_advanceRestart it'⟩

/-- Nothing an iterator does next leaves the contents, and the value it shows is in the entry
area. -/
structure InBounds (b : Block) (m : Moment) : Prop where
  read : ∀ p it, m = (some p, it) → ∃ m', b.Read m m'
  call : ∀ it, m = (none, it) → ∀ c, ∃ m', b.start c it = .ok m'
  value : b.ValueInside m.2

/-- The entry an iterator is about to decode lies in the entry area. -/
def Sound (b : Block) (m : Moment) : Prop := ∀ p it, m = (some p, it) → b.EntryFits it.current

theorem Met.ranged (hn : b.restarts.length < 2 ^ 32) {it : Iterator} {made : List Call} {m : Moment}
    (h : b.Met it made m) : b.Ranged m := by
  induction h with
  | new => trivial
  | @call made it' m c _ hs _ =>
      obtain ⟨m', h1, h2, -⟩ := start_ranged hn c it'
      cases h1.symm.trans hs
      exact h2
  | read _ hread ih =>
      obtain ⟨p, it, it', rfl, -, hr⟩ := hread
      obtain ⟨m', h1, h2, -⟩ := @resume_ranged b hn p it it' ih
      cases h1.symm.trans hr
      exact h2

/-- In a run whose entries all lie in the entry area every value shown does. -/
theorem Met.valueInside (hn : b.restarts.length < 2 ^ 32) {it : Iterator} (hit : b.ValueInside it)
    {calls made : List Call} {m : Moment} (h : b.Met it made m) (hmade : made <+: calls)
    (hall : ∀ made, made <+: calls → ∀ m, b.Met it made m → b.Sound m) : b.ValueInside m.2 := by
  induction h with
  | new => exact hit
  | @call made it' m c _ hs ih =>
      obtain ⟨m', h1, -, h3⟩ := start_ranged hn c it'
      cases h1.symm.trans hs
      exact h3 (ih ((List.prefix_append _ _).trans hmade))
  | read hm hread _ =>
      have hrange := hm.ranged hn
      have hsound := hall _ hmade _ hm
      obtain ⟨p, it, it', rfl, hd, hr⟩ := hread
      obtain ⟨m', h1, -, h3⟩ := @resume_ranged b hn p it it' hrange
      cases h1.symm.trans hr
      exact h3.mpr ((valueInside_iff hd).mpr (hsound p it rfl))

/-- The reads of a run stay inside the contents, and its values in the entry area, exactly if the
restart points lie in the contents and every entry decoded in the run lies in the entry area. -/
theorem inBounds_iff (contents : Bytes) (calls : List Call) :
    (∃ b, Block.new contents = .ok b ∧ b.contents = contents ∧ b.data_size ≤ contents.length ∧
        ∀ made, made <+: calls → ∀ m, b.Met newIterator made m → b.InBounds m) ↔
      CountFits contents ∧ ∀ b, Block.new contents = .ok b →
        ∀ made, made <+: calls → ∀ m, b.Met newIterator made m → b.Sound m := by
  constructor
  · rintro ⟨b, hb, -, -, hall⟩
    refine ⟨(new_ok_iff contents).mp ⟨b, hb⟩, fun b' hb' made hmade m hm p it hpend => ?_⟩
    cases hb.symm.trans hb'
    have hrange := hm.ranged (new_bounds hb).2.2.1
    obtain ⟨m', hread⟩ := (hall made hmade m hm).read p it hpend
    have hinside := (hall made hmade m' (hm.read hread)).value
    obtain ⟨p', it0, it', hpend', hd, hr⟩ := hread
    rw [hpend'] at hrange
    cases hpend.symm.trans hpend'
    obtain ⟨m'', h1, -, h3⟩ := @resume_ranged b (new_bounds hb).2.2.1 _ it it' hrange
    cases h1.symm.trans hr
    exact (valueInside_iff hd).mp (h3.mp hinside)
  · rintro ⟨hcount, hall⟩
    obtain ⟨b, hb⟩ := (new_ok_iff contents).mpr hcount
    obtain ⟨hc, hsize, hn, -⟩ := new_bounds hb
    refine ⟨b, hb, hc, hsize, fun made hmade m hm => ⟨?_, ?_, ?_⟩⟩
    · rintro p it rfl
      have hfits := (hall b hb made hmade _ hm p it rfl).keyFits
      obtain ⟨it', hd⟩ := (decodeEntry_ok_iff it).mpr hfits
      obtain ⟨m', h1, -, -⟩ := @resume_ranged b hn p it it' (hm.ranged hn)
      exact ⟨m', p, it, it', rfl, hd, h1⟩
    · rintro it rfl c
      obtain ⟨m', h1, -, -⟩ := start_ranged hn c it
      exact ⟨m', h1⟩
    · have hnew : b.ValueInside newIterator := fun h => nomatch h
      exact hm.valueInside hn hnew hmade (hall b hb)

/-- A block of one entry, whose key is said to have 127 bytes where none are left. -/
def shortBlock : Bytes := [0, 127, 0] ++ encodeFixed32 0 ++ encodeFixed32 1

/-- `SeekToFirst` on it reads behind the contents. -/
theorem shortBlock_out_of_bounds :
    ¬ ∃ b, Block.new shortBlock = .ok b ∧ b.contents = shortBlock ∧ b.data_size ≤ shortBlock.length ∧
      ∀ made, made <+: [Call.seekToFirst] → ∀ m, b.Met newIterator made m → b.InBounds m := by
  rintro ⟨b, hb, -, -, hall⟩
  cases hb.symm.trans (show Block.new shortBlock = .ok ⟨shortBlock, 3, [0]⟩ from rfl)
  obtain ⟨m', p, it, it', hpend, hd, -⟩ :=
    (hall [.seekToFirst] (List.prefix_refl _) _ (.call .seekToFirst .new rfl)).read _ _ rfl
  cases hpend
  exact absurd ((decodeEntry_ok_iff _).mp ⟨it', hd⟩) (by decide)

end Block
end MiniLevelDB
