import MiniLevelDB.LogWalk

/-! # Reading back what was written

`walk_render` and `walk_render_take` follow the reader over the bytes of consecutive physical
records, complete or cut anywhere, and `assemble_fragments` joins the fragments of a record again.

The main results are `readLog_take_written`, for a log cut at any byte, and `readLog_resume`, for
a writer resumed behind the valid part of any file. -/

namespace MiniLevelDB

/-! ### Steps over written bytes -/

theorem RecordType.ofByte_toByte (type : RecordType) :
    RecordType.ofByte type.toByte = some type := by
  cases type <;> decide

theorem headerLen_recordHeader {type : RecordType} {payload : Bytes} (h : payload.length < 65536)
    (t : Bytes) : headerLen (recordHeader type payload ++ t) = payload.length := by
  have hlow : payload.length &&& 0xff = payload.length % 256 :=
    Nat.and_two_pow_sub_one_eq_mod payload.length 8
  have hhigh : (payload.length >>> 8) &&& 0xff = payload.length / 256 % 256 := by
    rw [Nat.shiftRight_eq_div_pow]
    exact Nat.and_two_pow_sub_one_eq_mod _ 8
  have hdrop : ∀ i, (recordHeader type payload ++ t).getD (4 + i) 0 =
      ([UInt8.ofNat (payload.length &&& 0xff), UInt8.ofNat ((payload.length >>> 8) &&& 0xff),
        type.toByte] ++ t).getD i 0 := by
    intro i
    rw [recordHeader, List.append_assoc, List.getD_append_right _ _ _ _ (by simp), crcField_length,
      Nat.add_sub_cancel_left]
  unfold headerLen
  rw [show 5 = 4 + 1 from rfl, show 4 = 4 + 0 from rfl, hdrop 0, hdrop 1, hlow, hhigh]
  simp only [List.cons_append, List.getD_cons_zero, List.getD_cons_succ, UInt8.toNat_ofNat']
  rw [or_shiftLeft_eq_add (by omega)]
  omega

theorem checkRecord_recordHeader {type : RecordType} (ht : type ≠ .kZeroType) (payload t : Bytes) :
    checkRecord (recordHeader type payload ++ (payload ++ t)) payload.length =
      some (type, payload) := by
  have htype : (recordHeader type payload ++ (payload ++ t)).getD 6 0 = type.toByte := by
    rw [recordHeader, List.append_assoc, List.getD_append_right _ _ _ _ (by simp), crcField_length]
    rfl
  have hpayload : ((recordHeader type payload ++ (payload ++ t)).drop kHeaderSize).take
      payload.length = payload := by
    rw [List.drop_left' (recordHeader_length type payload), List.take_left' rfl]
  unfold checkRecord
  rw [htype, RecordType.ofByte_toByte, hpayload]
  cases type with
  | kZeroType => exact absurd rfl ht
  | _ =>
      simp only [recordHeader, List.append_assoc, decodeFixed32_crcField]
      exact if_neg (by simp)

/-- The step over a written record. -/
theorem next_record {b t : Bytes} {r : PhysicalRecord} (ht : r.type ≠ .kZeroType)
    (hfit : r.start % kBlockSize + kHeaderSize + r.payload.length ≤ kBlockSize)
    (hdrop : b.drop r.start = recordHeader r.type r.payload ++ (r.payload ++ t)) :
    next b r.start = some (some (.ok r), r.stop) := by
  have hh := kHeaderSize_eq
  have hb := kBlockSize_eq
  have hend := blockEnd_eq r.start
  have hlen : b.length - r.start = kHeaderSize + (r.payload.length + t.length) := by
    rw [← List.length_drop, hdrop]
    simp
  have hhead : headerLen (b.drop r.start) = r.payload.length := by
    rw [hdrop, headerLen_recordHeader (by omega)]
  have hcheck : checkRecord (b.drop r.start) r.payload.length = some (r.type, r.payload) := by
    rw [hdrop, checkRecord_recordHeader ht]
  have hmod := Nat.mod_le r.start kBlockSize
  unfold next
  simp only [hhead, hcheck]
  rw [if_neg (by omega), if_neg (by omega)]
  rfl

theorem blockEnd_of_fragStart_ne {o : ℕ} (h : fragStart o ≠ o) :
    blockEnd o = fragStart o ∧ blockEnd o < o + kHeaderSize := by
  have hmod := Nat.mod_lt o (show 0 < kBlockSize by decide)
  have hle := Nat.mod_le o kBlockSize
  rw [blockEnd_eq]
  unfold fragStart at h ⊢
  split_ifs at h ⊢ <;> omega

theorem next_padding {b : Bytes} {o : ℕ} (h : fragStart o ≠ o) :
    next b o = if b.length < fragStart o then none else some (none, fragStart o) := by
  obtain ⟨h1, h2⟩ := blockEnd_of_fragStart_ne h
  unfold next
  simp only
  rw [if_pos (by omega), h1]

/-- The walk to the place of the next header. -/
theorem walk_padding {b : Bytes} {o : ℕ} (h : fragStart o ≤ b.length) :
    Walk b o [] (fragStart o) := by
  by_cases hne : fragStart o = o
  · rw [hne]
    exact .refl o
  · have := next_padding (b := b) hne
    rw [if_neg (by omega)] at this
    exact .step this (.refl _)

/-- **The reader sees the records that were written**, whatever stands behind them. -/
theorem walk_render {p : Bytes} {o : ℕ} {rs : List PhysicalRecord} (hp : Placed o rs)
    (ho : p.length = o) (t : Bytes) :
    Walk (p ++ (render o rs ++ t)) o (rs.map .ok) (lastStop o rs) := by
  induction hp generalizing p with
  | nil o => exact .refl o
  | @cons o r rs h1 h2 h3 h4 ih =>
      have hle : o ≤ r.start := h1 ▸ le_fragStart o
      have hstop : (p ++ r.bytes o).length = r.stop := by
        rw [List.length_append, ho, PhysicalRecord.bytes_length hle]
      have hfile : p ++ (render o (r :: rs) ++ t) = (p ++ r.bytes o) ++ (render r.stop rs ++ t) := by
        simp [render]
      have hdrop : (p ++ (render o (r :: rs) ++ t)).drop r.start =
          recordHeader r.type r.payload ++ (r.payload ++ (render r.stop rs ++ t)) := by
        have hz : (p ++ List.replicate (r.start - o) 0).length = r.start := by
          rw [List.length_append, List.length_replicate, ho]
          omega
        have hassoc : p ++ (render o (r :: rs) ++ t) = (p ++ List.replicate (r.start - o) 0) ++
            (recordHeader r.type r.payload ++ (r.payload ++ (render r.stop rs ++ t))) := by
          simp [render, PhysicalRecord.bytes]
        rw [hassoc, List.drop_left' hz]
      have hlen : r.start ≤ (p ++ (render o (r :: rs) ++ t)).length := by
        rw [hfile, List.length_append, hstop, PhysicalRecord.stop]
        omega
      have hpad := walk_padding (b := p ++ (render o (r :: rs) ++ t)) (h1 ▸ hlen)
      rw [← h1] at hpad
      refine hpad.trans (.step (next_record h3 h2 hdrop) ?_)
      rw [hfile]
      exact ih hstop

/-- A record that is cut ends the walk. -/
theorem next_cut {b : Bytes} {r : PhysicalRecord}
    (hfit : r.start % kBlockSize + kHeaderSize + r.payload.length ≤ kBlockSize)
    (hlt : b.length < r.stop)
    (hpre : b.drop r.start <+: recordHeader r.type r.payload ++ r.payload) :
    next b r.start = none := by
  have hh := kHeaderSize_eq
  have hb := kBlockSize_eq
  have hend := blockEnd_eq r.start
  have hmod := Nat.mod_le r.start kBlockSize
  unfold PhysicalRecord.stop at hlt
  unfold next
  simp only
  by_cases hhead : r.start + kHeaderSize > b.length
  · rw [if_pos (by omega), if_pos (by omega)]
  · obtain ⟨z, hz⟩ : recordHeader r.type r.payload <+: b.drop r.start :=
      List.prefix_of_prefix_length_le (List.prefix_append _ _) hpre
        (by rw [recordHeader_length, List.length_drop]; omega)
    have hlen : headerLen (b.drop r.start) = r.payload.length := by
      rw [← hz, headerLen_recordHeader (by omega)]
    rw [if_neg (by omega), hlen, if_pos (by omega), if_pos (by omega)]

/-- **A cut log.**  When only a prefix of the bytes is there, the reader sees the records that lie
in it completely, and then the end. -/
theorem walk_render_prefix {p x : Bytes} {o : ℕ} {rs : List PhysicalRecord} (hp : Placed o rs)
    (ho : p.length = o) (hx : x <+: render o rs) :
    ∃ pre suf last, rs = pre ++ suf ∧ Walk (p ++ x) o (pre.map .ok) last ∧
      next (p ++ x) last = none ∧ lastStop o pre ≤ (p ++ x).length ∧
      ∀ r rest, suf = r :: rest → (p ++ x).length < r.stop := by
  induction hp generalizing p x with
  | nil o =>
      obtain rfl : x = [] := List.prefix_nil.mp hx
      refine ⟨[], [], o, rfl, .refl o, next_of_length_le (by simp [ho]), by simp [ho], ?_⟩
      intro r rest h
      cases h
  | @cons o r rs h1 h2 h3 h4 ih =>
      have hle : o ≤ r.start := h1 ▸ le_fragStart o
      have hbytes := PhysicalRecord.bytes_length hle
      have hstop : (p ++ r.bytes o).length = r.stop := by rw [List.length_append, ho, hbytes]
      by_cases hcut : (p ++ x).length < r.stop
      · have hxr : x <+: r.bytes o := by
          refine List.prefix_of_prefix_length_le hx (List.prefix_append _ _) ?_
          rw [List.length_append] at hcut
          omega
        refine ⟨[], r :: rs, ?_⟩
        suffices h : ∃ last, Walk (p ++ x) o [] last ∧ next (p ++ x) last = none by
          obtain ⟨last, hw, hend⟩ := h
          refine ⟨last, rfl, hw, hend, ?_, ?_⟩
          · rw [lastStop_nil, List.length_append]
            omega
          · rintro _ _ ⟨⟩
            exact hcut
        by_cases hpad : (p ++ x).length < r.start
        · by_cases hne : fragStart o = o
          · exact ⟨o, .refl o, next_of_length_le (by omega)⟩
          · refine ⟨o, .refl o, ?_⟩
            rw [next_padding hne, if_pos (by omega)]
        · refine ⟨r.start, ?_, next_cut h2 hcut ?_⟩
          · rw [h1]
            exact walk_padding (by omega)
          · obtain ⟨y, hy⟩ := hxr
            refine ⟨y, ?_⟩
            have hz : (p ++ List.replicate (r.start - o) 0).length = r.start := by
              rw [List.length_append, List.length_replicate, ho]
              omega
            rw [← List.drop_append_of_le_length (by omega), List.append_assoc, hy,
              PhysicalRecord.bytes, ← List.append_assoc, List.drop_left' hz]
      · obtain ⟨x', rfl, hx'⟩ : ∃ x', x = r.bytes o ++ x' ∧ x' <+: render r.stop rs := by
          obtain ⟨x', rfl⟩ : r.bytes o <+: x := by
            refine List.prefix_of_prefix_length_le (List.prefix_append _ _) hx ?_
            rw [List.length_append] at hcut
            omega
          exact ⟨x', rfl, (List.prefix_append_right_inj _).mp hx⟩
        obtain ⟨pre, suf, last, rfl, hw, hend, hstop', hsuf⟩ := ih hstop hx'
        rw [List.append_assoc] at hw hend hstop' hsuf
        refine ⟨r :: pre, suf, last, rfl, ?_, hend, hstop', hsuf⟩
        have hfirst := walk_render (p := p) (.cons h1 h2 h3 (.nil r.stop)) ho x'
        simp only [render, List.append_nil] at hfirst
        exact hfirst.trans hw

/-! ### Joining the fragments again -/

/-- The fragments of a record join to it, behind what an unfinished first part left. -/
theorem assemble_fragments (o : ℕ) (data : Bytes) (first : Bool) (carry : Option Bytes) (c : Bytes)
    (hc : first = true ∧ c = [] ∨ first = false ∧ carry = some c) (es : List Event) :
    assemble carry ((fragments o data first).map .ok ++ es) = (c ++ data) :: assemble none es := by
  induction o, data, first using fragments.induct generalizing carry c with
  | case1 o data first ih =>
      rw [fragments]
      by_cases hlt : fragLen o data < data.length
      · have hne : (fragLen o data == data.length) = false := by simpa using hlt.ne
        have ih' := fun c => ih hlt (some c) c (Or.inr ⟨rfl, rfl⟩)
        rw [if_pos hlt]
        rcases hc with ⟨rfl, rfl⟩ | ⟨rfl, rfl⟩
        · simp [firstFragment, hne, RecordType.of, assemble] at ih' ⊢
          rw [ih', List.take_append_drop]
        · simp [firstFragment, hne, RecordType.of, assemble] at ih' ⊢
          rw [ih', List.append_assoc, List.take_append_drop]
      · have heq : fragLen o data = data.length := le_antisymm (fragLen_le o data) (by omega)
        rw [if_neg hlt]
        rcases hc with ⟨rfl, rfl⟩ | ⟨rfl, rfl⟩ <;>
          simp [firstFragment, heq, RecordType.of, assemble]

/-- Without its last fragment nothing of a record is returned. -/
theorem assemble_fragments_prefix {o : ℕ} {data : Bytes} {first : Bool}
    {pre suf : List PhysicalRecord} (h : pre ++ suf = fragments o data first) (hne : suf ≠ [])
    (carry : Option Bytes) : assemble carry (pre.map .ok) = [] := by
  induction o, data, first using fragments.induct generalizing carry pre with
  | case1 o data first ih =>
      rw [fragments] at h
      cases pre with
      | nil => rfl
      | cons r pre =>
          rw [List.cons_append] at h
          injection h with hr htail
          subst hr
          by_cases hlt : fragLen o data < data.length
          · have hlen : (fragLen o data == data.length) = false := by simpa using hlt.ne
            rw [if_pos hlt] at htail
            have ih' := ih hlt htail
            cases first <;> cases carry <;>
              simp [firstFragment, hlen, RecordType.of, assemble, ih']
          · rw [if_neg hlt] at htail
            exact absurd (List.append_eq_nil_iff.mp htail).2 hne

/-- The records that lie completely in a beginning of the physical records. -/
theorem assemble_physicalRecords_prefix {o : ℕ} {ds : List Bytes} {pre suf : List PhysicalRecord}
    (h : pre ++ suf = physicalRecords o ds) (carry : Option Bytes) :
    ∃ i ≤ ds.length, assemble carry (pre.map .ok) = ds.take i ∧
      (∃ s, pre = physicalRecords o (ds.take i) ++ s) ∧
      ∀ j, i < j → j ≤ ds.length → ∃ r rest s, suf = r :: rest ∧
        physicalRecords o (ds.take j) = pre ++ r :: s := by
  induction ds generalizing o pre carry with
  | nil =>
      obtain ⟨rfl, -⟩ := List.append_eq_nil_iff.mp h
      exact ⟨0, le_refl _, rfl, ⟨[], rfl⟩, fun j h1 h2 => absurd h1 (by simpa using h2)⟩
  | cons d ds ih =>
      rw [physicalRecords] at h
      have hcut : (∃ pre', pre = fragments o d true ++ pre' ∧
            pre' ++ suf = physicalRecords (lastStop o (fragments o d true)) ds) ∨
          ∃ r c, fragments o d true = pre ++ r :: c ∧
            suf = r :: (c ++ physicalRecords (lastStop o (fragments o d true)) ds) := by
        rcases List.append_eq_append_iff.mp h with ⟨c, hc, hs⟩ | ⟨pre', hpre, hs⟩
        · cases c with
          | nil => exact Or.inl ⟨[], by simpa using hc.symm, by simpa using hs⟩
          | cons r c => exact Or.inr ⟨r, c, hc, hs⟩
        · exact Or.inl ⟨pre', hpre, hs.symm⟩
      rcases hcut with ⟨pre', rfl, hs⟩ | ⟨r, c, hc, hs⟩
      · obtain ⟨i, hi, h1, ⟨s, h2⟩, h3⟩ := ih hs none
        refine ⟨i + 1, Nat.succ_le_succ hi, ?_, ⟨s, ?_⟩, ?_⟩
        · rw [List.map_append, assemble_fragments o d true carry [] (Or.inl ⟨rfl, rfl⟩), h1]
          rfl
        · rw [List.take_succ_cons, physicalRecords, List.append_assoc, ← h2]
        · intro j hj hj'
          obtain ⟨j, rfl⟩ : ∃ k, j = k + 1 := ⟨j - 1, by omega⟩
          obtain ⟨r, rest, s, hsuf, hr⟩ := h3 j (by omega) (by simpa using hj')
          refine ⟨r, rest, s, hsuf, ?_⟩
          rw [List.take_succ_cons, physicalRecords, hr, List.append_assoc]
      · refine ⟨0, Nat.zero_le _, assemble_fragments_prefix hc.symm (by simp) carry,
          ⟨pre, rfl⟩, ?_⟩
        intro j hj hj'
        obtain ⟨j, rfl⟩ : ∃ k, j = k + 1 := ⟨j - 1, by omega⟩
        refine ⟨r, _, c ++ physicalRecords (lastStop o (fragments o d true)) (ds.take j), hs, ?_⟩
        rw [List.take_succ_cons, physicalRecords, hc, List.append_assoc, List.cons_append]

theorem assemble_physicalRecords (o : ℕ) (ds : List Bytes) (carry : Option Bytes) :
    assemble carry ((physicalRecords o ds).map .ok) = ds := by
  obtain ⟨i, hi, h1, -, h3⟩ :=
    assemble_physicalRecords_prefix (List.append_nil (physicalRecords o ds)) carry
  rcases hi.lt_or_eq with hlt | rfl
  · obtain ⟨r, rest, s, h, -⟩ := h3 ds.length hlt (le_refl _)
    cases h
  · rw [h1, List.take_length]

/-! ### Logs -/

theorem validEnd_map_ok (ve : ℕ) (rs : List PhysicalRecord) :
    validEnd ve (rs.map .ok) = lastStop ve rs := by
  induction rs generalizing ve with
  | nil => rfl
  | cons r rs ih => exact ih _

/-- The reader accepts a record that ends where the file ends, or the file is empty: the file is
one a writer may go on with, and its records are `ds`. -/
def Log (b : Bytes) (ds : List Bytes) : Prop :=
  ∃ es, Walk b 0 es b.length ∧ validEnd 0 es = b.length ∧ assemble none es = ds

theorem log_nil : Log [] [] := ⟨[], .refl 0, rfl, rfl⟩

/-- Reading a log. -/
theorem Log.readLog_eq {b : Bytes} {ds : List Bytes} (h : Log b ds) : readLog b = (ds, b.length) := by
  obtain ⟨es, hw, hve, rfl⟩ := h
  rw [readLog_of_scan ⟨_, hw, next_of_length_le (le_refl _)⟩, hve]

/-- The bytes a writer in step puts behind a log. -/
theorem Log.append {b : Bytes} {ds : List Bytes} (h : Log b ds) (new : List Bytes) :
    Log (b ++ render b.length (physicalRecords b.length new)) (ds ++ new) := by
  obtain ⟨es, hw, hve, rfl⟩ := h
  have hp := placed_physicalRecords b.length new
  have hlen : (b ++ render b.length (physicalRecords b.length new)).length =
      lastStop b.length (physicalRecords b.length new) := by
    rw [List.length_append, hp.render_length]
  have hnew := walk_render hp rfl []
  rw [List.append_nil] at hnew
  refine ⟨es ++ (physicalRecords b.length new).map .ok, ?_, ?_, ?_⟩
  · rw [hlen]
    exact (hw.append (le_refl _) _).trans hnew
  · rw [validEnd_append, hve, validEnd_map_ok, hlen]
  · rw [assemble_append, assemble_physicalRecords]

/-- Cutting a file at the last record a walk accepts leaves a log. -/
theorem log_take_walk {b : Bytes} {es : List Event} {off : ℕ} (hw : Walk b 0 es off) :
    validEnd 0 es ≤ b.length ∧ Log (b.take (validEnd 0 es)) (assemble none es) := by
  rcases hw.split with ⟨k, rfl⟩ | ⟨es', k, v, rfl, hw', hv, hve⟩
  · rw [validEnd_replicate_bad, assemble_replicate_bad]
    exact ⟨Nat.zero_le _, log_nil⟩
  · rw [validEnd_append, validEnd_replicate_bad, hve, assemble_append_bad]
    refine ⟨hv, es', ?_, ?_, rfl⟩
    · rw [List.length_take_of_le hv]
      exact hw'.take (le_refl _) hv
    · rw [hve, List.length_take_of_le hv]

/-- What is left of any file after cutting it at `valid_end()`. -/
theorem log_take_valid_end (b : Bytes) :
    (readLog b).2 ≤ b.length ∧ Log (b.take (readLog b).2) (readLog b).1 := by
  obtain ⟨es, hs⟩ := exists_scan b
  rw [readLog_of_scan hs]
  obtain ⟨off, hw, -⟩ := hs
  exact log_take_walk hw

theorem Placed.stop_bounds {o : ℕ} {rs : List PhysicalRecord} (h : Placed o rs) :
    o ≤ lastStop o rs ∧ ∀ r ∈ rs, o < r.stop ∧ r.stop ≤ lastStop o rs := by
  induction h with
  | nil o => exact ⟨le_refl o, fun r hr => absurd hr List.not_mem_nil⟩
  | @cons o r rs h1 h2 h3 h4 ih =>
      have hlt : o < r.stop := by
        have := le_fragStart o
        have := kHeaderSize_eq
        unfold PhysicalRecord.stop
        omega
      refine ⟨hlt.le.trans ih.1, fun r' hr' => ?_⟩
      rcases List.mem_cons.mp hr' with rfl | hr'
      · exact ⟨hlt, ih.1⟩
      · exact ⟨hlt.trans (ih.2 r' hr').1, (ih.2 r' hr').2⟩

theorem Placed.right {o : ℕ} {rs ss : List PhysicalRecord} (h : Placed o (rs ++ ss)) :
    Placed (lastStop o rs) ss := by
  induction rs generalizing o with
  | nil => exact h
  | cons r rs ih =>
      cases h with
      | cons h1 h2 h3 h4 => exact ih h4

/-- The physical records that end in the first `n` bytes. -/
theorem Placed.filter_stop_le {o n : ℕ} {pre suf : List PhysicalRecord}
    (h : Placed o (pre ++ suf)) (hpre : lastStop o pre ≤ n)
    (hsuf : ∀ r rest, suf = r :: rest → n < r.stop) :
    (pre ++ suf).filter (·.stop ≤ n) = pre := by
  rw [List.filter_append, List.filter_eq_self.mpr, List.filter_eq_nil_iff.mpr, List.append_nil]
  · intro r hr
    cases suf with
    | nil => cases hr
    | cons r₀ rest =>
        have hn := hsuf r₀ rest rfl
        rcases List.mem_cons.mp hr with rfl | hr
        · simpa using hn
        · have := ((@Placed.right _ [r₀] rest h.right).stop_bounds.2 r hr).1
          rw [lastStop_cons, lastStop_nil] at this
          simp only [decide_eq_true_eq, not_le]
          omega
  · intro r hr
    have := (h.left.stop_bounds.2 r hr).2
    simp only [decide_eq_true_eq]
    omega

/-- **A log with a torn tail.**  Behind a log there is a beginning of the bytes of `new`: the
reader returns the records of the log and those of `new` that lie completely in the file, and its
valid end is the end of the last physical record that does. -/
theorem Log.readLog_torn {b x : Bytes} {ds new : List Bytes} (h : Log b ds)
    (hx : x <+: render b.length (physicalRecords b.length new)) :
    ∃ i ≤ new.length,
      (readLog (b ++ x)).1 = ds ++ new.take i ∧
      (readLog (b ++ x)).2 =
        lastStop b.length ((physicalRecords b.length new).filter (·.stop ≤ (b ++ x).length)) ∧
      lastStop b.length (physicalRecords b.length (new.take i)) ≤ (b ++ x).length ∧
      ∀ j, i < j → j ≤ new.length →
        (b ++ x).length < lastStop b.length (physicalRecords b.length (new.take j)) := by
  obtain ⟨es, hw, hve, rfl⟩ := h
  have hp := placed_physicalRecords b.length new
  obtain ⟨pre, suf, last, hsplit, hw', hend, hle, hsuf⟩ := walk_render_prefix hp rfl hx
  have hscan : Scan (b ++ x) (es ++ pre.map .ok) :=
    ⟨last, (hw.append (le_refl _) x).trans hw', hend⟩
  obtain ⟨i, hi, h1, ⟨s, h2⟩, h3⟩ :=
    assemble_physicalRecords_prefix hsplit.symm (carryAfter none es)
  rw [hsplit] at hp ⊢
  refine ⟨i, hi, ?_, ?_, ?_, ?_⟩
  · rw [readLog_of_scan hscan, assemble_append, h1]
  · rw [readLog_of_scan hscan, validEnd_append, hve, validEnd_map_ok, hp.filter_stop_le hle hsuf]
  · have hpre := hp.left
    rw [h2] at hle hpre
    rw [lastStop_append] at hle
    exact hpre.right.stop_bounds.1.trans hle
  · intro j hj hj'
    obtain ⟨r, rest, t, hr, ht⟩ := h3 j hj hj'
    have hplaced := placed_physicalRecords b.length (new.take j)
    rw [ht] at hplaced ⊢
    exact (hsuf r rest hr).trans_le (hplaced.stop_bounds.2 r (by simp)).2

/-! ### Main results -/

/-- **Reading a log cut at any byte.**  The records `rs` are written by one writer on an empty
file.  The first `n` bytes of the file read as the longest beginning of `rs` that ends within them,
and `valid_end()` is the end of the last physical record within them. -/
theorem readLog_take_written (file : FILE) (fs : FileSystem) (rs : List Bytes) :
    ∃ w fs', ((LogWriter.new file 0).addRecords rs).run (disk unbounded) (fs.insert file []) =
        .done (Status.OK, w) fs' ∧
      fs'.get file = render 0 (physicalRecords 0 rs) ∧
      ∀ n ≤ (fs'.get file).length, ∃ i ≤ rs.length,
        lastStop 0 (physicalRecords 0 (rs.take i)) ≤ n ∧
        (∀ j, i < j → j ≤ rs.length → n < lastStop 0 (physicalRecords 0 (rs.take j))) ∧
        readLog ((fs'.get file).take n) =
          (rs.take i, lastStop 0 ((physicalRecords 0 rs).filter (·.stop ≤ n))) := by
  have h0 : FileSystem.get (fs.insert file []) file = [] := FileSystem.get_insert fs file []
  obtain ⟨⟨s, w⟩, fs', hrun, rfl, hget⟩ := run_unbounded_of_wp
    (Q := fun a fs' => a.1 = Status.OK ∧ fs'.get file = render 0 (physicalRecords 0 rs))
    (@LogWriter.addRecords_wp unbounded (LogWriter.new file 0) rs (fs.insert file []) _
      (by rw [show (LogWriter.new file 0).file = file from rfl, h0]; rfl)
      (fun w' fs' _ _ hget => ⟨rfl, by
        rw [show (LogWriter.new file 0).file = file from rfl, h0] at hget
        exact hget⟩))
  refine ⟨w, fs', hrun, hget, fun n hn => ?_⟩
  have hx : (fs'.get file).take n <+: render ([] : Bytes).length (physicalRecords 0 rs) :=
    hget ▸ List.take_prefix n _
  obtain ⟨i, hi, h1, h2, h3, h4⟩ := log_nil.readLog_torn hx
  rw [List.nil_append] at h1 h2 h3 h4
  rw [List.length_take_of_le hn] at h2 h3 h4
  exact ⟨i, hi, h3, h4, Prod.ext h1 h2⟩

/-- **Resuming behind the valid part.**  Any file reads as some records with a valid end in it; the
file cut there reads the same, and what a writer appends behind the cut is read after them. -/
theorem readLog_resume (file : FILE) (fs : FileSystem) (b : Bytes) (new : List Bytes) :
    (readLog b).2 ≤ b.length ∧ readLog (b.take (readLog b).2) = readLog b ∧
      ∃ w fs', ((LogWriter.new file (readLog b).2).addRecords new).run (disk unbounded)
          (fs.insert file (b.take (readLog b).2)) = .done (Status.OK, w) fs' ∧
        (readLog (fs'.get file)).1 = (readLog b).1 ++ new := by
  obtain ⟨hle, hlog⟩ := log_take_valid_end b
  have hlen : (b.take (readLog b).2).length = (readLog b).2 := List.length_take_of_le hle
  refine ⟨hle, ?_, ?_⟩
  · rw [hlog.readLog_eq, hlen]
  · obtain ⟨⟨s, w⟩, fs', hrun, rfl, hread⟩ := run_unbounded_of_wp
      (Q := fun a fs' => a.1 = Status.OK ∧ (readLog (fs'.get file)).1 = (readLog b).1 ++ new)
      (@LogWriter.addRecords_wp unbounded (LogWriter.new file (readLog b).2) new
        (fs.insert file (b.take (readLog b).2)) _
        (by
          rw [show (LogWriter.new file _).file = file from rfl, FileSystem.get_insert, hlen]
          exact LogWriter.inStep_new file _)
        (fun w' fs' _ _ hget => ⟨rfl, by
          rw [show (LogWriter.new file _).file = file from rfl, FileSystem.get_insert] at hget
          rw [hget, (hlog.append new).readLog_eq]⟩))
    exact ⟨w, fs', hrun, hread⟩

end MiniLevelDB
