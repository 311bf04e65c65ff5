import MiniLevelDB.LogRoundTrip

/-! # Altered logs

A written log of which bytes were altered, in any number of blocks, such that in each block the first
altered physical record fails a check of the reader.  The reader gives up a block at that record and goes
on with the next block.  `seen` are the events it meets, by the offset up to which it skips; a walk over
the altered file has them (`walk_altered`), and joined they give the records none of whose fragments is
hidden (`assemble_seen`).  The main result is `readLog_altered`. -/

namespace MiniLevelDB

/-! ### Alterations -/

namespace PhysicalRecord

/-- The number of the block the record lies in. -/
def block (r : PhysicalRecord) : ℕ := r.start / kBlockSize

/-- Whether the files differ in the bytes of the record. -/
def altered (b b' : Bytes) (r : PhysicalRecord) : Bool :=
  (b.drop r.start).take (r.stop - r.start) ≠ (b'.drop r.start).take (r.stop - r.start)

end PhysicalRecord

/-- The reader's checks at `off`: the length does not leave the block or the file, and type and
checksum are right. -/
def Rejected (b : Bytes) (off : ℕ) : Prop :=
  off + kHeaderSize + headerLen (b.drop off) > min b.length (blockEnd off) ∨
    checkRecord (b.drop off) (headerLen (b.drop off)) = none

/-- An altered record stands at `r` or before it in its block. -/
def Hidden (altered : PhysicalRecord → Bool) (P : List PhysicalRecord) (r : PhysicalRecord) : Prop :=
  ∃ r' ∈ P, altered r' = true ∧ r'.block = r.block ∧ r'.start ≤ r.start

instance (altered : PhysicalRecord → Bool) (P : List PhysicalRecord) (r : PhysicalRecord) :
    Decidable (Hidden altered P r) := inferInstanceAs (Decidable (∃ r' ∈ P, _))

/-- `r` is the first altered record of its block. -/
def FirstAltered (altered : PhysicalRecord → Bool) (P : List PhysicalRecord) (r : PhysicalRecord) : Prop :=
  r ∈ P ∧ altered r = true ∧ ∀ r' ∈ P, altered r' = true → r'.block = r.block → r.start ≤ r'.start

/-- The records written from `o` on, each with its fragments. -/
def recordFragments : ℕ → List Bytes → List (Bytes × List PhysicalRecord)
  | _, [] => []
  | o, d :: ds => (d, fragments o d true) :: recordFragments (lastStop o (fragments o d true)) ds

/-! ### Where the reader skips to -/

variable (altered : PhysicalRecord → Bool)

/-- The offset up to which the reader skips behind physical records: the end of the last block in
which it met an altered one. -/
def skipAfter (skip : ℕ) (rs : List PhysicalRecord) : ℕ :=
  rs.foldl (fun skip r => if altered r then blockEnd r.start else skip) skip

/-- The events the reader meets. -/
def seen : ℕ → List PhysicalRecord → List Event
  | _, [] => []
  | skip, r :: rs =>
      (if r.start < skip then [] else if altered r then [.bad] else [.ok r]) ++
        seen (if altered r then blockEnd r.start else skip) rs

variable {altered}

theorem seen_append (skip : ℕ) (rs ss : List PhysicalRecord) :
    seen altered skip (rs ++ ss) = seen altered skip rs ++ seen altered (skipAfter altered skip rs) ss := by
  induction rs generalizing skip with
  | nil => rfl
  | cons r rs ih => rw [List.cons_append, seen, ih, seen, List.append_assoc]; rfl

theorem skipAfter_concat (skip : ℕ) (rs : List PhysicalRecord) (r : PhysicalRecord) :
    skipAfter altered skip (rs ++ [r]) =
      if altered r then blockEnd r.start else skipAfter altered skip rs := by
  rw [skipAfter, List.foldl_append]
  rfl

theorem skipAfter_of_unaltered {rs : List PhysicalRecord} (h : ∀ r ∈ rs, altered r = false) (skip : ℕ) :
    skipAfter altered skip rs = skip := by
  induction rs generalizing skip with
  | nil => rfl
  | cons r rs ih =>
      rw [skipAfter, List.foldl_cons, ← skipAfter, h r List.mem_cons_self]
      exact ih (fun r' hr' => h r' (List.mem_cons_of_mem _ hr')) skip

theorem blockEnd_mono {a c : ℕ} (h : a ≤ c) : blockEnd a ≤ blockEnd c :=
  Nat.mul_le_mul_right _ (Nat.succ_le_succ (Nat.div_le_div_right h))

/-- Offsets of one block have one block end. -/
theorem blockEnd_eq_of_lt {a c : ℕ} (h : a ≤ c) (hlt : c < blockEnd a) : blockEnd c = blockEnd a := by
  unfold blockEnd at *
  rw [kBlockSize_eq] at *
  omega

theorem div_eq_iff_lt_blockEnd {a c : ℕ} (h : a ≤ c) :
    a / kBlockSize = c / kBlockSize ↔ c < blockEnd a := by
  unfold blockEnd
  rw [kBlockSize_eq]
  omega

theorem Placed.stop_le_blockEnd {o : ℕ} {r : PhysicalRecord} {rs : List PhysicalRecord}
    (h : Placed o (r :: rs)) : r.stop ≤ blockEnd r.start := by
  cases h with
  | cons h1 h2 h3 h4 =>
      have hmod := Nat.mod_le r.start kBlockSize
      rw [blockEnd_eq, PhysicalRecord.stop]
      omega

/-- Records behind others start behind them. -/
theorem Placed.le_start {o : ℕ} {rs : List PhysicalRecord} (h : Placed o rs) :
    ∀ r ∈ rs, o ≤ r.start := by
  induction h with
  | nil o => exact fun r hr => absurd hr List.not_mem_nil
  | @cons o r rs h1 h2 h3 h4 ih =>
      have hle : o ≤ r.start := h1 ▸ le_fragStart o
      intro r' hr'
      rcases List.mem_cons.mp hr' with rfl | hr'
      · exact hle
      · have := ih r' hr'
        unfold PhysicalRecord.stop at this
        omega

theorem start_lt_stop (r : PhysicalRecord) : r.start < r.stop := by
  have := kHeaderSize_eq
  unfold PhysicalRecord.stop
  omega

/-- Behind records, the reader skips what lies in the block of an altered one. -/
theorem lt_skipAfter_iff {done : List PhysicalRecord} (h : Placed 0 done) {s : ℕ}
    (hs : lastStop 0 done ≤ s) :
    s < skipAfter altered 0 done ↔ ∃ r ∈ done, altered r = true ∧ s < blockEnd r.start := by
  induction done using List.reverseRecOn with
  | nil => simp [skipAfter]
  | append_singleton done r ih =>
      rw [lastStop_append, lastStop_cons, lastStop_nil] at hs
      have hr := h.right
      have hstart := hr.le_start r List.mem_cons_self
      have hstop := start_lt_stop r
      have ih := ih h.left (by omega)
      rw [skipAfter_concat]
      by_cases ha : altered r = true
      · rw [if_pos ha]
        refine ⟨fun hlt => ⟨r, by simp, ha, hlt⟩, ?_⟩
        rintro ⟨r', hr', -, hlt⟩
        rcases List.mem_append.mp hr' with hr' | hr'
        · have := (h.left.stop_bounds.2 r' hr').2
          have := start_lt_stop r'
          exact hlt.trans_le (blockEnd_mono (by omega))
        · rwa [List.mem_singleton.mp hr'] at hlt
      · rw [if_neg ha, ih]
        constructor
        · rintro ⟨r', hr', h'⟩
          exact ⟨r', List.mem_append_left _ hr', h'⟩
        · rintro ⟨r', hr', ha', h'⟩
          rcases List.mem_append.mp hr' with hr' | hr'
          · exact ⟨r', hr', ha', h'⟩
          · exact absurd (List.mem_singleton.mp hr' ▸ ha') ha

/-- A reader that skips `s` skips the rest of its block. -/
theorem skipAfter_eq {done : List PhysicalRecord} (h : Placed 0 done) {s : ℕ}
    (hs : lastStop 0 done ≤ s) (hlt : s < skipAfter altered 0 done) :
    skipAfter altered 0 done = blockEnd s := by
  induction done using List.reverseRecOn with
  | nil => simp [skipAfter] at hlt
  | append_singleton done r ih =>
      rw [lastStop_append, lastStop_cons, lastStop_nil] at hs
      have hstart := h.right.le_start r List.mem_cons_self
      have hstop := start_lt_stop r
      rw [skipAfter_concat] at hlt ⊢
      by_cases ha : altered r = true
      · rw [if_pos ha] at hlt ⊢
        exact (blockEnd_eq_of_lt (by omega) hlt).symm
      · rw [if_neg ha] at hlt ⊢
        exact ih h.left (by omega) hlt

/-- What hides a record: the reader skips it, or it is altered itself. -/
theorem hidden_iff {done rest : List PhysicalRecord} {r : PhysicalRecord}
    (h : Placed 0 (done ++ r :: rest)) :
    Hidden altered (done ++ r :: rest) r ↔ r.start < skipAfter altered 0 done ∨ altered r = true := by
  have hstart := h.right.le_start r List.mem_cons_self
  have hbefore : ∀ r' ∈ done, r'.start ≤ r.start := by
    intro r' hr'
    have := (h.left.stop_bounds.2 r' hr').2
    have := start_lt_stop r'
    omega
  rw [lt_skipAfter_iff h.left hstart]
  constructor
  · rintro ⟨r', hr', ha, hblock, hle⟩
    rcases List.mem_append.mp hr' with hr' | hr'
    · exact Or.inl ⟨r', hr', ha, (div_eq_iff_lt_blockEnd hle).mp hblock⟩
    · rcases List.mem_cons.mp hr' with rfl | hr'
      · exact Or.inr ha
      · have hrest := (@Placed.right _ (done ++ [r]) rest (by simpa using h)).le_start r' hr'
        rw [lastStop_append, lastStop_cons, lastStop_nil] at hrest
        have := start_lt_stop r
        omega
  · rintro (⟨r', hr', ha, hlt⟩ | ha)
    · exact ⟨r', List.mem_append_left _ hr', ha,
        (div_eq_iff_lt_blockEnd (hbefore r' hr')).mpr hlt, hbefore r' hr'⟩
    · exact ⟨r, by simp, ha, rfl, le_refl _⟩

/-! ### The walk over an altered file -/

theorem next_of_rejected {b : Bytes} {off : ℕ} (h : Rejected b off) (hfit : off + kHeaderSize ≤ b.length)
    (hblock : off + kHeaderSize ≤ blockEnd off) :
    next b off = some (some .bad, blockEnd off) ∨ next b off = none ∧ b.length < blockEnd off := by
  unfold next
  simp only
  rw [if_neg (by omega)]
  by_cases hlen : off + kHeaderSize + headerLen (b.drop off) > min b.length (blockEnd off)
  · rw [if_pos hlen]
    split
    · exact Or.inr ⟨rfl, by assumption⟩
    · exact Or.inl rfl
  · rw [if_neg hlen, h.resolve_left hlen]
    exact Or.inl rfl

theorem fragStart_cases (o : ℕ) : fragStart o = o ∨ fragStart o = blockEnd o := by
  by_cases h : fragStart o = o
  · exact Or.inl h
  · exact Or.inr (blockEnd_of_fragStart_ne h).1.symm

/-- The bytes of a written record, and what comes behind them. -/
theorem Placed.drop_start {o : ℕ} {rs : List PhysicalRecord} (h : Placed o rs) {p : Bytes}
    (hp : p.length = o) : ∀ r ∈ rs,
      ∃ t, (p ++ render o rs).drop r.start = recordHeader r.type r.payload ++ (r.payload ++ t) := by
  induction h generalizing p with
  | nil o => exact fun r hr => absurd hr List.not_mem_nil
  | @cons o r rs h1 h2 h3 h4 ih =>
      intro r' hr'
      rcases List.mem_cons.mp hr' with rfl | hr'
      · have hle : o ≤ r'.start := h1 ▸ le_fragStart o
        refine ⟨render r'.stop rs, ?_⟩
        have hz : (p ++ List.replicate (r'.start - o) 0).length = r'.start := by
          rw [List.length_append, List.length_replicate, hp]
          omega
        have hassoc : p ++ render o (r' :: rs) = (p ++ List.replicate (r'.start - o) 0) ++
            (recordHeader r'.type r'.payload ++ (r'.payload ++ render r'.stop rs)) := by
          simp [render, PhysicalRecord.bytes]
        rw [hassoc, List.drop_left' hz]
      · have hstop : (p ++ r.bytes o).length = r.stop := by
          rw [List.length_append, hp, PhysicalRecord.bytes_length (h1 ▸ le_fragStart o)]
        obtain ⟨t, ht⟩ := ih hstop r' hr'
        exact ⟨t, by rw [← ht, render, List.append_assoc]⟩

/-- A record that is not altered is accepted. -/
theorem next_unaltered {b b' t : Bytes} {r : PhysicalRecord} (hr : r.altered b b' = false)
    (ht : r.type ≠ .kZeroType)
    (hfit : r.start % kBlockSize + kHeaderSize + r.payload.length ≤ kBlockSize)
    (hdrop : b.drop r.start = recordHeader r.type r.payload ++ (r.payload ++ t)) :
    next b' r.start = some (some (.ok r), r.stop) := by
  have hsame : (b'.drop r.start).take (r.stop - r.start) = recordHeader r.type r.payload ++ r.payload := by
    have heq : (b.drop r.start).take (r.stop - r.start) = (b'.drop r.start).take (r.stop - r.start) := by
      simpa [PhysicalRecord.altered] using hr
    have hlen : r.stop - r.start = (recordHeader r.type r.payload ++ r.payload).length := by
      rw [List.length_append, recordHeader_length, PhysicalRecord.stop]
      omega
    rw [← heq, hdrop, ← List.append_assoc, hlen, List.take_left]
  refine next_record (t := (b'.drop r.start).drop (r.stop - r.start)) ht hfit ?_
  rw [← List.append_assoc, ← hsame, List.take_append_drop]

/-- The reader meets nothing in a block it gave up. -/
theorem seen_eq_nil {a : ℕ} {rs : List PhysicalRecord}
    (h : ∀ r ∈ rs, a ≤ r.start ∧ r.start < blockEnd a) : seen altered (blockEnd a) rs = [] := by
  induction rs with
  | nil => rfl
  | cons r rs ih =>
      obtain ⟨hle, hlt⟩ := h r List.mem_cons_self
      rw [seen, if_pos hlt, blockEnd_eq_of_lt hle hlt, ite_self]
      exact ih fun r' hr' => h r' (List.mem_cons_of_mem _ hr')

/-- The reader comes to the next record that it does not skip. -/
theorem walk_to_start {b' : Bytes} {done : List PhysicalRecord} (hdone : Placed 0 done) {start : ℕ}
    (hstart : start = fragStart (lastStop 0 done)) (hle : start ≤ b'.length)
    (hskip : skipAfter altered 0 done ≤ start) :
    Walk b' (max (lastStop 0 done) (skipAfter altered 0 done)) [] start := by
  subst hstart
  by_cases h : skipAfter altered 0 done ≤ lastStop 0 done
  · rw [max_eq_left h]
    exact walk_padding hle
  · have heq := skipAfter_eq hdone (le_refl _) (lt_of_not_ge h)
    have hpad : fragStart (lastStop 0 done) = blockEnd (lastStop 0 done) :=
      (fragStart_cases _).resolve_left fun hc => h (hskip.trans hc.le)
    rw [max_eq_right (le_of_not_ge h), heq, ← hpad]
    exact .refl _

/-- A record behind others that the reader does not skip is the first altered one of its block, if it
is altered. -/
theorem firstAltered_of_skipAfter_le {done rest : List PhysicalRecord} {r : PhysicalRecord}
    (hP : Placed 0 (done ++ r :: rest)) (hskip : skipAfter altered 0 done ≤ r.start)
    (hr : altered r = true) : FirstAltered altered (done ++ r :: rest) r := by
  have hstart := hP.right.le_start r List.mem_cons_self
  refine ⟨by simp, hr, fun r' hr' ha hblock => ?_⟩
  rcases List.mem_append.mp hr' with hr' | hr'
  · have hstop := (hP.left.stop_bounds.2 r' hr').2
    have hlt := start_lt_stop r'
    have := (lt_skipAfter_iff hP.left hstart).mpr
      ⟨r', hr', ha, (div_eq_iff_lt_blockEnd (by omega)).mp hblock⟩
    omega
  · rcases List.mem_cons.mp hr' with rfl | hr'
    · exact le_refl _
    · have hrest := (@Placed.right _ (done ++ [r]) rest (by simpa using hP)).le_start r' hr'
      rw [lastStop_append, lastStop_cons, lastStop_nil] at hrest
      have := start_lt_stop r
      omega

/-- **The walk over the altered file**: behind the records `done` the reader stands at their end, or at
the end of a block it gave up, and meets the events `seen`. -/
theorem walk_altered {b b' : Bytes} {P : List PhysicalRecord} (hlen : b'.length = b.length)
    (hb : b = render 0 P) (hP : Placed 0 P)
    (hrej : ∀ r, FirstAltered (·.altered b b') P r → Rejected b' r.start)
    {done rest : List PhysicalRecord} (hsplit : P = done ++ rest) :
    ∃ es last, Walk b' (max (lastStop 0 done) (skipAfter (·.altered b b') 0 done)) es last ∧
      next b' last = none ∧
      (seen (·.altered b b') (skipAfter (·.altered b b') 0 done) rest = es ∨
        seen (·.altered b b') (skipAfter (·.altered b b') 0 done) rest = es ++ [.bad]) := by
  induction rest generalizing done with
  | nil =>
      refine ⟨[], _, .refl _, next_of_length_le ?_, Or.inl rfl⟩
      have := hP.render_length
      rw [hsplit, List.append_nil] at this
      rw [hlen, hb, hsplit, List.append_nil]
      omega
  | cons r rest ih =>
      obtain ⟨es, last, hw, hend, hes⟩ := @ih (done ++ [r]) (by simpa using hsplit)
      rw [skipAfter_concat, lastStop_append, lastStop_cons, lastStop_nil] at hw
      rw [skipAfter_concat] at hes
      obtain ⟨t, hdrop⟩ := hP.drop_start (p := []) rfl r (by simp [hsplit])
      rw [List.nil_append, ← hb] at hdrop
      have hfile := hP.render_length
      have hbound : ∀ r' ∈ P, r'.stop ≤ b'.length := by
        intro r' hr'
        have := (hP.stop_bounds.2 r' hr').2
        rw [hlen, hb]
        omega
      have hstop := hbound r (by simp [hsplit])
      rw [hsplit] at hP
      have hplaced := hP.right
      have hblock := hplaced.stop_le_blockEnd
      obtain ⟨hstart, hfit, htype, -⟩ : r.start = fragStart (lastStop 0 done) ∧
          r.start % kBlockSize + kHeaderSize + r.payload.length ≤ kBlockSize ∧ r.type ≠ .kZeroType ∧
            Placed r.stop rest := by
        cases hplaced with
        | cons h1 h2 h3 h4 => exact ⟨h1, h2, h3, h4⟩
      have hle := hplaced.le_start r List.mem_cons_self
      have hlt := start_lt_stop r
      rw [seen]
      by_cases hskip : r.start < skipAfter (·.altered b b') 0 done
      · have heq := skipAfter_eq hP.left hle hskip
        rw [if_pos hskip, List.nil_append]
        rw [heq, ite_self] at hw hes ⊢
        rw [max_eq_right hblock] at hw
        rw [max_eq_right (by omega)]
        exact ⟨es, last, hw, hend, hes⟩
      · have hle' : r.start ≤ b'.length := by omega
        have hto := walk_to_start hP.left hstart hle' (not_lt.mp hskip)
        rw [if_neg hskip]
        by_cases ha : r.altered b b' = true
        · have hfirst := firstAltered_of_skipAfter_le hP (not_lt.mp hskip) ha
          rw [← hsplit] at hfirst
          rw [if_pos ha] at hw hes ⊢
          rw [if_pos ha]
          have hstop' : r.start + kHeaderSize ≤ r.stop := Nat.le_add_right _ _
          rcases next_of_rejected (hrej r hfirst) (by omega) (by omega) with hn | ⟨hn, hshort⟩
          · rw [max_eq_right hblock] at hw
            refine ⟨.bad :: es, last, hto.trans (.step hn hw), hend, ?_⟩
            rcases hes with h | h
            · exact Or.inl (by rw [h]; rfl)
            · exact Or.inr (by rw [h]; rfl)
          · refine ⟨[], r.start, hto, hn, Or.inr ?_⟩
            rw [seen_eq_nil, List.append_nil, List.nil_append]
            intro r' hr'
            have hrest := (@Placed.right _ (done ++ [r]) rest (by simpa using hP)).le_start r' hr'
            rw [lastStop_append, lastStop_cons, lastStop_nil] at hrest
            have := hbound r' (by simp [hsplit, hr'])
            have := start_lt_stop r'
            omega
        · have hn := next_unaltered (by simpa using ha) htype hfit hdrop
          rw [if_neg ha] at hw hes ⊢
          rw [if_neg ha]
          rw [max_eq_left (by omega)] at hw
          refine ⟨.ok r :: es, last, hto.trans (.step hn hw), hend, ?_⟩
          rcases hes with h | h
          · exact Or.inl (by rw [h]; rfl)
          · exact Or.inr (by rw [h]; rfl)

/-! ### The records that remain -/

/-- An unfinished fragment fills its block. -/
theorem firstFragment_stop_of_lt {o : ℕ} {data : Bytes} (h : fragLen o data < data.length) (first : Bool) :
    (firstFragment o data first).stop = blockEnd (fragStart o) := by
  have hfit := fragStart_mod_add_le o
  have hmod := Nat.mod_le (fragStart o) kBlockSize
  rw [firstFragment_stop, blockEnd_eq]
  unfold fragLen at h ⊢
  omega

theorem firstFragment_type_later (o : ℕ) (data : Bytes) :
    (firstFragment o data false).type = .kMiddleType ∨ (firstFragment o data false).type = .kLastType := by
  unfold firstFragment RecordType.of
  cases fragLen o data == data.length <;> simp

/-- Later fragments without their first one give nothing. -/
theorem assemble_seen_orphans (o : ℕ) (data : Bytes) (skip : ℕ) :
    assemble none (seen altered skip (fragments o data false)) = [] ∧
      carryAfter none (seen altered skip (fragments o data false)) = none := by
  generalize hfirst : false = first
  induction o, data, first using fragments.induct generalizing skip with
  | case1 o data first ih =>
      subst hfirst
      rw [fragments]
      obtain ⟨tail, htail⟩ : ∃ tail, (if fragLen o data < data.length then
          fragments (firstFragment o data false).stop (data.drop (fragLen o data)) false else []) = tail :=
        ⟨_, rfl⟩
      have hnothing : ∀ skip, assemble none (seen altered skip tail) = [] ∧
          carryAfter none (seen altered skip tail) = none := by
        intro skip
        rw [← htail]
        split
        · exact ih (by assumption) skip rfl
        · exact ⟨rfl, rfl⟩
      rw [htail, seen]
      by_cases hskip : (firstFragment o data false).start < skip
      · rw [if_pos hskip]
        exact hnothing _
      · rw [if_neg hskip]
        by_cases ha : altered (firstFragment o data false) = true
        · rw [if_pos ha]
          exact hnothing _
        · rw [if_neg ha]
          rcases firstFragment_type_later o data with h | h <;>
            simpa only [List.singleton_append, assemble, carryAfter, h] using hnothing _

/-- The later fragments of a record behind the payload of the first ones: the record, unless one of
them is altered. -/
theorem assemble_seen_rest (o : ℕ) (data c : Bytes) {skip : ℕ} (hskip : skip ≤ o) :
    assemble (some c) (seen altered skip (fragments o data false)) =
        (if ∀ r ∈ fragments o data false, altered r = false then [c ++ data] else []) ∧
      carryAfter (some c) (seen altered skip (fragments o data false)) = none := by
  generalize hfirst : false = first
  induction o, data, first using fragments.induct generalizing skip c with
  | case1 o data first ih =>
      subst hfirst
      have hstart : ¬ (firstFragment o data false).start < skip := by
        have := le_fragStart o
        rw [firstFragment_start]
        omega
      rw [fragments, seen, if_neg hstart]
      by_cases ha : altered (firstFragment o data false) = true
      · have hno : ¬ ∀ r ∈ firstFragment o data false :: (if fragLen o data < data.length then
            fragments (firstFragment o data false).stop (data.drop (fragLen o data)) false else []),
            altered r = false := fun h => by
          rw [h _ List.mem_cons_self] at ha
          cases ha
        rw [if_neg hno, if_pos ha]
        by_cases hlt : fragLen o data < data.length
        · rw [if_pos hlt]
          exact assemble_seen_orphans _ _ _
        · rw [if_neg hlt]
          exact ⟨rfl, rfl⟩
      · have ha : altered (firstFragment o data false) = false := by simpa using ha
        by_cases hlt : fragLen o data < data.length
        · have hle : skip ≤ (firstFragment o data false).stop := by
            have := start_lt_stop (firstFragment o data false)
            omega
          obtain ⟨h1, h2⟩ := ih hlt (c ++ data.take (fragLen o data)) hle rfl
          have hne : (fragLen o data == data.length) = false := by simpa using hlt.ne
          have htype : (firstFragment o data false).type = .kMiddleType := by
            unfold firstFragment
            rw [hne]
            rfl
          rw [List.append_assoc, List.take_append_drop] at h1
          simp only [ha, hlt, if_true, Bool.false_eq_true, if_false, List.forall_mem_cons, true_and,
            List.singleton_append, assemble, carryAfter, htype]
          exact ⟨h1, h2⟩
        · have heq : fragLen o data = data.length := le_antisymm (fragLen_le o data) (by omega)
          have htype : (firstFragment o data false).type = .kLastType := by
            unfold firstFragment
            rw [heq, beq_self_eq_true]
            rfl
          have hpayload : (firstFragment o data false).payload = data := by
            unfold firstFragment
            rw [heq, List.take_length]
          simp [ha, hlt, seen, assemble, carryAfter, htype, hpayload]

/-- **One record.**  It is returned if the reader does not skip its first fragment and none of its
fragments is altered; in any case nothing unfinished is left behind it. -/
theorem assemble_seen_record (o : ℕ) (data : Bytes) {skip : ℕ} (hskip : skip ≤ blockEnd (fragStart o)) :
    assemble none (seen altered skip (fragments o data true)) =
        (if skip ≤ fragStart o ∧ ∀ r ∈ fragments o data true, altered r = false then [data] else []) ∧
      carryAfter none (seen altered skip (fragments o data true)) = none := by
  obtain ⟨tail, htail⟩ : ∃ tail, (if fragLen o data < data.length then
      fragments (firstFragment o data true).stop (data.drop (fragLen o data)) false else []) = tail :=
    ⟨_, rfl⟩
  have hnothing : ∀ skip, assemble none (seen altered skip tail) = [] ∧
      carryAfter none (seen altered skip tail) = none := by
    intro skip
    rw [← htail]
    split
    · exact assemble_seen_orphans _ _ _
    · exact ⟨rfl, rfl⟩
  rw [fragments, htail, seen, firstFragment_start]
  by_cases hstart : fragStart o < skip
  · have hno : ¬ (skip ≤ fragStart o ∧ ∀ r ∈ firstFragment o data true :: tail, altered r = false) :=
      fun h => absurd hstart (not_lt.mpr h.1)
    rw [if_pos hstart, if_neg hno]
    exact hnothing _
  · rw [if_neg hstart]
    by_cases ha : altered (firstFragment o data true) = true
    · have hno : ¬ (skip ≤ fragStart o ∧ ∀ r ∈ firstFragment o data true :: tail, altered r = false) :=
        fun h => by
          rw [h.2 _ List.mem_cons_self] at ha
          cases ha
      rw [if_pos ha, if_neg hno]
      exact hnothing _
    · have ha : altered (firstFragment o data true) = false := by simpa using ha
      by_cases hlt : fragLen o data < data.length
      · have hstop := firstFragment_stop_of_lt hlt true
        obtain ⟨h1, h2⟩ := assemble_seen_rest (firstFragment o data true).stop
          (data.drop (fragLen o data)) (data.take (fragLen o data)) (hstop ▸ hskip)
        have hne : (fragLen o data == data.length) = false := by simpa using hlt.ne
        have htype : (firstFragment o data true).type = .kFirstType := by
          unfold firstFragment
          rw [hne]
          rfl
        rw [if_pos hlt] at htail
        rw [htail, List.take_append_drop] at h1
        rw [htail] at h2
        simp only [ha, not_lt.mp hstart, Bool.false_eq_true, if_false, List.forall_mem_cons, true_and,
          List.singleton_append, assemble, carryAfter, htype]
        exact ⟨h1, h2⟩
      · have heq : fragLen o data = data.length := le_antisymm (fragLen_le o data) (by omega)
        have htype : (firstFragment o data true).type = .kFullType := by
          unfold firstFragment
          rw [heq, beq_self_eq_true]
          rfl
        have hpayload : (firstFragment o data true).payload = data := by
          unfold firstFragment
          rw [heq, List.take_length]
        rw [if_neg hlt] at htail
        simp [← htail, ha, not_lt.mp hstart, seen, assemble, carryAfter, htype, hpayload]

/-- Where the reader skips to reaches no further than the block of the next record. -/
theorem skipAfter_le_blockEnd {done : List PhysicalRecord} (h : Placed 0 done) :
    skipAfter altered 0 done ≤ blockEnd (fragStart (lastStop 0 done)) := by
  by_cases hlt : fragStart (lastStop 0 done) < skipAfter altered 0 done
  · exact (skipAfter_eq h (le_fragStart _) hlt).le
  · exact (not_lt.mp hlt).trans (lt_blockEnd _).le

/-- None of a record's fragments is hidden if its first one is not skipped and none is altered. -/
theorem fragments_not_hidden_iff {done rest : List PhysicalRecord} {data : Bytes}
    (h : Placed 0 (done ++ (fragments (lastStop 0 done) data true ++ rest))) :
    (∀ r ∈ fragments (lastStop 0 done) data true,
        ¬ Hidden altered (done ++ (fragments (lastStop 0 done) data true ++ rest)) r) ↔
      skipAfter altered 0 done ≤ fragStart (lastStop 0 done) ∧
        ∀ r ∈ fragments (lastStop 0 done) data true, altered r = false := by
  have hfirst : ∃ tail, fragments (lastStop 0 done) data true =
      firstFragment (lastStop 0 done) data true :: tail := by
    rw [fragments]
    exact ⟨_, rfl⟩
  obtain ⟨frags, hfrags⟩ : ∃ frags, fragments (lastStop 0 done) data true = frags := ⟨_, rfl⟩
  rw [hfrags] at h hfirst ⊢
  -- a fragment is hidden by what stands before it, or altered
  have hhidden : ∀ before r after, frags = before ++ r :: after →
      (Hidden altered (done ++ (frags ++ rest)) r ↔
        r.start < skipAfter altered (skipAfter altered 0 done) before ∨ altered r = true) := by
    rintro before r after rfl
    have hassoc : done ++ (before ++ r :: after ++ rest) = (done ++ before) ++ r :: (after ++ rest) := by
      simp
    rw [hassoc] at h ⊢
    rw [hidden_iff h]
    simp only [skipAfter, List.foldl_append]
  constructor
  · intro hno
    refine ⟨?_, fun r hr => ?_⟩
    · obtain ⟨tail, htail⟩ := hfirst
      have := hno _ (htail ▸ List.mem_cons_self)
      rw [hhidden [] _ tail htail] at this
      exact not_lt.mp fun hlt => this (Or.inl hlt)
    · obtain ⟨before, after, hsplit⟩ := List.append_of_mem hr
      have := hno r hr
      rw [hhidden before r after hsplit] at this
      simpa using fun ha => this (Or.inr ha)
  · rintro ⟨hskip, hall⟩ r hr hhid
    obtain ⟨before, after, hsplit⟩ := List.append_of_mem hr
    rw [hhidden before r after hsplit, skipAfter_of_unaltered (fun r' hr' => hall r' (by simp [hsplit, hr'])),
      hall r hr] at hhid
    have hle : fragStart (lastStop 0 done) ≤ r.start := by
      have hplaced := hfrags ▸ placed_fragments (lastStop 0 done) data true
      obtain ⟨tail, htail⟩ := hfirst
      rw [htail] at hr hplaced
      rcases List.mem_cons.mp hr with rfl | hr
      · exact le_refl _
      · have := (@Placed.right _ [_] tail hplaced).le_start r hr
        have := start_lt_stop (firstFragment (lastStop 0 done) data true)
        rw [lastStop_cons, lastStop_nil, firstFragment_start] at *
        omega
    rcases hhid with hlt | ha
    · omega
    · cases ha

/-- The records of which no fragment is hidden. -/
def intact (altered : PhysicalRecord → Bool) (P : List PhysicalRecord) (frags : List (Bytes × List PhysicalRecord)) : List Bytes :=
  (frags.filter fun p => ∀ r ∈ p.2, ¬ Hidden altered P r).map (·.1)

/-- **The records that remain** are those of which no fragment is hidden. -/
theorem assemble_seen {P done : List PhysicalRecord} (ds : List Bytes)
    (hP : P = done ++ physicalRecords (lastStop 0 done) ds) (h : Placed 0 P) :
    assemble none (seen altered (skipAfter altered 0 done) (physicalRecords (lastStop 0 done) ds)) =
      intact altered P (recordFragments (lastStop 0 done) ds) := by
  induction ds generalizing done with
  | nil => rfl
  | cons d ds ih =>
      rw [physicalRecords] at hP ⊢
      have hrest := @ih (done ++ fragments (lastStop 0 done) d true) (by simpa using hP)
      rw [lastStop_append] at hrest
      obtain ⟨h1, h2⟩ := @assemble_seen_record altered (lastStop 0 done) d _
        (skipAfter_le_blockEnd (hP ▸ h).left)
      have hiff := @fragments_not_hidden_iff altered _ _ _ (hP ▸ h)
      rw [← hP] at hiff
      rw [seen_append, assemble_append, h1, h2, recordFragments, intact, List.filter_cons]
      have hskip : skipAfter altered (skipAfter altered 0 done) (fragments (lastStop 0 done) d true) =
          skipAfter altered 0 (done ++ fragments (lastStop 0 done) d true) := by
        simp only [skipAfter, List.foldl_append]
      rw [hskip, hrest]
      by_cases hkept : ∀ r ∈ fragments (lastStop 0 done) d true, ¬ Hidden altered P r
      · rw [if_pos (hiff.mp hkept), if_pos (decide_eq_true hkept)]
        rfl
      · rw [if_neg fun hc => hkept (hiff.mpr hc), if_neg (by simpa using hkept)]
        rfl

/-! ### Main result -/

/-- **Reading an altered log.**  The records `rs` are written by one writer on an empty file, and then
bytes of the file are altered such that in each block the first altered physical record fails the length,
type or checksum check.  The reader returns the records none of whose fragments lies at or behind the
first altered physical record of its block, in their order. -/
theorem readLog_altered (file : FILE) (fs : FileSystem) (rs : List Bytes) :
    ∃ w fs', ((LogWriter.new file 0).addRecords rs).run (disk unbounded) (fs.insert file []) =
        .done (Status.OK, w) fs' ∧
      fs'.get file = render 0 (physicalRecords 0 rs) ∧
      ∀ b' : Bytes, b'.length = (fs'.get file).length →
        (∀ r, FirstAltered (·.altered (fs'.get file) b') (physicalRecords 0 rs) r → Rejected b' r.start) →
        (readLog b').1 =
          intact (·.altered (fs'.get file) b') (physicalRecords 0 rs) (recordFragments 0 rs) := by
  have h0 : FileSystem.get (fs.insert file []) file = [] := FileSystem.get_insert fs file []
  have hfile : (LogWriter.new file 0).file = file := rfl
  obtain ⟨⟨s, w⟩, fs', hrun, rfl, hget⟩ := run_unbounded_of_wp
    (Q := fun a fs' => a.1 = Status.OK ∧ fs'.get file = render 0 (physicalRecords 0 rs))
    (@LogWriter.addRecords_wp unbounded (LogWriter.new file 0) rs (fs.insert file []) _
      (by rw [hfile, h0]; rfl)
      (fun w' fs' _ _ hget => ⟨rfl, by rwa [hfile, h0] at hget⟩))
  refine ⟨w, fs', hrun, hget, fun b' hlen hrej => ?_⟩
  have hP := placed_physicalRecords 0 rs
  obtain ⟨es, last, hw, hend, hes⟩ := @walk_altered _ b' _ hlen hget hP hrej [] _ rfl
  have hkept := @assemble_seen (·.altered (fs'.get file) b') (physicalRecords 0 rs) [] rs rfl hP
  rw [readLog_of_scan ⟨last, hw, hend⟩]
  refine Eq.trans ?_ hkept
  rcases hes with hes | hes
  · rw [← hes]
    rfl
  · have hbad := assemble_append_bad none es 1
    rw [List.replicate_one, ← hes] at hbad
    exact hbad.symm

/-- The type of the second one of two records is altered. -/
theorem readLog_altered_type :
    ∃ w fs', ((LogWriter.new (ascii "f") 0).addRecords [[1], [2]]).run (disk unbounded)
        (AList.insert (ascii "f") [] ∅) = .done (Status.OK, w) fs' ∧
      (readLog ((FileSystem.get fs' (ascii "f")).set 14 0)).1 = [[1]] := by
  obtain ⟨w, fs', hrun, hget, hread⟩ := readLog_altered (ascii "f") ∅ [[1], [2]]
  have hrecords : physicalRecords 0 [[1], [2]] = [⟨0, .kFullType, [1]⟩, ⟨8, .kFullType, [2]⟩] := by decide +kernel
  refine ⟨w, fs', hrun, ?_⟩
  rw [hread _ List.length_set ?_, hget]
  · decide +kernel
  · rintro r ⟨hr, haltered, -⟩
    rw [hget] at haltered ⊢
    rw [hrecords] at hr
    rcases List.mem_cons.mp hr with rfl | hr
    · exact absurd haltered (by decide +kernel)
    · obtain rfl := List.mem_singleton.mp hr
      exact Or.inr (by decide +kernel)

end MiniLevelDB
