import MiniLevelDB.LogWriter

/-! # What the log writer writes

`fragments o data first` are the physical records of a record `data` that is written when the
file has `o` bytes, each with the offset its header starts at; `render o` are their bytes, with
the zeros that fill a block tail too short for a header.  `physicalRecords o ds` are those of a
list of records.

`addRecord_wp` is the specification of the writer's loop: a writer in step with the file
(`InStep`) appends exactly these bytes, and a crash leaves a prefix of them. -/

namespace MiniLevelDB

open Effect Posix

/-! ### Layout -/

/-- The first position from `o` on where a header fits into its block. -/
def fragStart (o : ℕ) : ℕ :=
  if kBlockSize - o % kBlockSize < kHeaderSize then o + (kBlockSize - o % kBlockSize) else o

/-- The bytes of `data` that fit behind that header. -/
def fragLen (o : ℕ) (data : Bytes) : ℕ :=
  min data.length (kBlockSize - fragStart o % kBlockSize - kHeaderSize)

/-- A physical record and the offset of its header. -/
structure PhysicalRecord where
  start : ℕ
  type : RecordType
  payload : Bytes
deriving DecidableEq, Repr

namespace PhysicalRecord

/-- The offset behind the record. -/
def stop (r : PhysicalRecord) : ℕ := r.start + kHeaderSize + r.payload.length

/-- The bytes of the record and of the padding in front of it, from `o` on. -/
def bytes (o : ℕ) (r : PhysicalRecord) : Bytes :=
  List.replicate (r.start - o) 0 ++ (recordHeader r.type r.payload ++ r.payload)

theorem bytes_length {o : ℕ} {r : PhysicalRecord} (h : o ≤ r.start) :
    o + (r.bytes o).length = r.stop := by
  simp only [bytes, stop, List.length_append, List.length_replicate, recordHeader_length]
  omega

end PhysicalRecord

/-- The fragment of `data` written first. -/
def firstFragment (o : ℕ) (data : Bytes) (first : Bool) : PhysicalRecord :=
  ⟨fragStart o, .of first (fragLen o data == data.length), data.take (fragLen o data)⟩

theorem le_fragStart (o : ℕ) : o ≤ fragStart o := by
  unfold fragStart
  split <;> omega

theorem fragStart_mod_add_le (o : ℕ) : fragStart o % kBlockSize + kHeaderSize ≤ kBlockSize := by
  unfold fragStart
  split <;> simp only [kBlockSize_eq, kHeaderSize_eq] at * <;> omega

theorem fragLen_le (o : ℕ) (data : Bytes) : fragLen o data ≤ data.length := Nat.min_le_left _ _

@[simp] theorem firstFragment_start (o : ℕ) (data : Bytes) (first : Bool) :
    (firstFragment o data first).start = fragStart o := rfl

theorem firstFragment_stop (o : ℕ) (data : Bytes) (first : Bool) :
    (firstFragment o data first).stop = fragStart o + kHeaderSize + fragLen o data := by
  simp [PhysicalRecord.stop, firstFragment, fragLen_le]

theorem firstFragment_stop_le (o : ℕ) (data : Bytes) (first : Bool) :
    fragStart o % kBlockSize + kHeaderSize + (firstFragment o data first).payload.length ≤
      kBlockSize := by
  have := fragStart_mod_add_le o
  simp only [firstFragment, List.length_take, fragLen]
  omega

theorem fragments_decreases {o : ℕ} {data : Bytes} (h : fragLen o data < data.length) :
    2 * (data.length - fragLen o data) +
        (if (fragStart o + kHeaderSize + fragLen o data) % kBlockSize + kHeaderSize = kBlockSize
          then 1 else 0) <
      2 * data.length + (if o % kBlockSize + kHeaderSize = kBlockSize then 1 else 0) := by
  unfold fragLen fragStart at *
  split_ifs at * <;> simp only [kBlockSize_eq, kHeaderSize_eq] at * <;> omega

/-- The physical records of `data`, written at `o`. -/
def fragments (o : ℕ) (data : Bytes) (first : Bool) : List PhysicalRecord :=
  firstFragment o data first ::
    if fragLen o data < data.length then
      fragments (firstFragment o data first).stop (data.drop (fragLen o data)) false
    else []
termination_by 2 * data.length + (if o % kBlockSize + kHeaderSize = kBlockSize then 1 else 0)
decreasing_by
  rw [List.length_drop, firstFragment_stop]
  exact fragments_decreases (by assumption)

/-- The bytes of consecutive physical records from `o` on. -/
def render : ℕ → List PhysicalRecord → Bytes
  | _, [] => []
  | o, r :: rs => r.bytes o ++ render r.stop rs

/-- The offset behind consecutive physical records from `o` on. -/
def lastStop (o : ℕ) (rs : List PhysicalRecord) : ℕ := rs.foldl (fun _ r => r.stop) o

/-- The physical records of a list of records, written from `o` on. -/
def physicalRecords : ℕ → List Bytes → List PhysicalRecord
  | _, [] => []
  | o, d :: ds => fragments o d true ++ physicalRecords (lastStop o (fragments o d true)) ds

/-- Each record starts at the first position behind the one before where it can, and ends inside
its block. -/
inductive Placed : ℕ → List PhysicalRecord → Prop
  | nil (o : ℕ) : Placed o []
  | cons {o : ℕ} {r : PhysicalRecord} {rs : List PhysicalRecord} : r.start = fragStart o →
      r.start % kBlockSize + kHeaderSize + r.payload.length ≤ kBlockSize → r.type ≠ .kZeroType →
      Placed r.stop rs → Placed o (r :: rs)

@[simp] theorem lastStop_nil (o : ℕ) : lastStop o [] = o := rfl

@[simp] theorem lastStop_cons (o : ℕ) (r : PhysicalRecord) (rs : List PhysicalRecord) :
    lastStop o (r :: rs) = lastStop r.stop rs := rfl

@[simp] theorem lastStop_append (o : ℕ) (rs ss : List PhysicalRecord) :
    lastStop o (rs ++ ss) = lastStop (lastStop o rs) ss := List.foldl_append

@[simp] theorem render_nil (o : ℕ) : render o [] = [] := rfl

@[simp] theorem render_append (o : ℕ) (rs ss : List PhysicalRecord) :
    render o (rs ++ ss) = render o rs ++ render (lastStop o rs) ss := by
  induction rs generalizing o with
  | nil => rfl
  | cons r rs ih => simp [render, ih]

theorem Placed.append {o : ℕ} {rs ss : List PhysicalRecord} (hr : Placed o rs)
    (hs : Placed (lastStop o rs) ss) : Placed o (rs ++ ss) := by
  induction hr with
  | nil o => exact hs
  | cons h1 h2 h3 _ ih => exact .cons h1 h2 h3 (ih hs)

theorem Placed.left {o : ℕ} {rs ss : List PhysicalRecord} (h : Placed o (rs ++ ss)) :
    Placed o rs := by
  induction rs generalizing o with
  | nil => exact .nil o
  | cons r rs ih =>
      cases h with
      | cons h1 h2 h3 h4 => exact .cons h1 h2 h3 (ih h4)

theorem Placed.render_length {o : ℕ} {rs : List PhysicalRecord} (h : Placed o rs) :
    o + (render o rs).length = lastStop o rs := by
  induction h with
  | nil o => rfl
  | @cons o r rs h1 h2 h3 h4 ih =>
      have := PhysicalRecord.bytes_length (h1 ▸ le_fragStart o : o ≤ r.start)
      simp only [render, List.length_append, lastStop_cons]
      omega

theorem RecordType.of_ne_zero (first last : Bool) : RecordType.of first last ≠ .kZeroType := by
  cases first <;> cases last <;> decide

theorem placed_fragments (o : ℕ) (data : Bytes) (first : Bool) :
    Placed o (fragments o data first) := by
  rw [fragments]
  refine .cons rfl (firstFragment_stop_le o data first) (RecordType.of_ne_zero _ _) ?_
  split
  · exact placed_fragments _ _ _
  · exact .nil _
termination_by 2 * data.length + (if o % kBlockSize + kHeaderSize = kBlockSize then 1 else 0)
decreasing_by
  rw [List.length_drop, firstFragment_stop]
  exact fragments_decreases (by assumption)

theorem placed_physicalRecords (o : ℕ) (ds : List Bytes) : Placed o (physicalRecords o ds) := by
  induction ds generalizing o with
  | nil => exact .nil o
  | cons d ds ih => exact (placed_fragments o d true).append (ih _)

/-! ### The writer -/

namespace LogWriter

/-- The writer's position in its block is that of the end of a file of `n` bytes. -/
def InStep (w : LogWriter) (n : ℕ) : Prop := w.block_offset % kBlockSize = n % kBlockSize

theorem inStep_new (file : FILE) (n : ℕ) : (new file n).InStep n := Nat.mod_mod n kBlockSize

variable {w : LogWriter} {fs : FileSystem}

theorem InStep.skipTail_block_offset {n : ℕ} (h : w.InStep n) :
    w.skipTail.block_offset = fragStart n % kBlockSize := by
  have h0 := w.block_offset_le
  unfold InStep at h
  rw [LogWriter.skipTail_block_offset]
  unfold fragStart
  split_ifs <;> simp only [kBlockSize_eq, kHeaderSize_eq] at * <;> omega

/-- The zeros the writer puts in front of the next header. -/
theorem InStep.padding {n : ℕ} (h : w.InStep n) :
    (kBlockSize - w.block_offset < kHeaderSize ∧ kBlockSize - w.block_offset > 0 ∧
      fragStart n - n = kBlockSize - w.block_offset) ∨
    (¬ (kBlockSize - w.block_offset < kHeaderSize ∧ kBlockSize - w.block_offset > 0) ∧
      fragStart n - n = 0) := by
  have h0 := w.block_offset_le
  unfold InStep at h
  unfold fragStart
  split_ifs <;> simp only [kBlockSize_eq, kHeaderSize_eq] at * <;> omega

variable {room : ℕ → Bool} {α : Type} {Q : α → FileSystem → Prop} {C : FileSystem → Prop}

/-- The fragment the loop emits for a writer in step. -/
theorem InStep.fragLen_eq {n : ℕ} (h : w.InStep n) (ptr : Bytes) :
    min ptr.length (kBlockSize - w.skipTail.block_offset - kHeaderSize) = fragLen n ptr := by
  rw [h.skipTail_block_offset]
  rfl

theorem padTail_wp {k : Bool → FileProg α} {n : ℕ} (h : w.InStep n) (hC : C fs)
    (htorn : ∀ x, x <+: List.replicate (fragStart n - n) 0 → C (fs.append w.file x))
    (hk : ∀ fs', C fs' → fs'.get w.file = fs.get w.file ++ List.replicate (fragStart n - n) 0 →
      (∀ x, fs'.append w.file x =
        fs.append w.file (List.replicate (fragStart n - n) 0 ++ x)) →
      (k true).wp (disk room) Q C fs') :
    (w.padTail >>= k).wp (disk room) Q C fs := by
  unfold padTail
  rcases h.padding with ⟨h1, h2, h3⟩ | ⟨h1, h3⟩
  · rw [if_pos ⟨h1, h2⟩, ← h3]
    refine fwrite_wp hC htorn ?_
    rw [List.length_replicate, beq_self_eq_true]
    exact hk _ (htorn _ (List.prefix_refl _)) (FileSystem.get_append _ _ _)
      (fun x => FileSystem.append_append _ _ _ x)
  · rw [if_neg h1]
    rw [h3] at hk
    exact hk fs hC (by simp) (by simp)

/-- `EmitPhysicalRecord` followed by `k`. -/
theorem emitPhysicalRecord_bind {α : Type} (w : LogWriter) (type : RecordType) (ptr : Bytes)
    (k : Status → FileProg α) :
    (w.emitPhysicalRecord type ptr >>= k) =
      fwrite w.file (recordHeader type ptr) >>= fun n =>
        if n ≠ kHeaderSize then k (Status.ioError (ascii "write log record failed"))
        else if ptr.length > 0 then
          fwrite w.file ptr >>= fun m =>
            if m ≠ ptr.length then k (Status.ioError (ascii "write log record failed"))
            else k Status.OK
        else k Status.OK := by
  rw [emitPhysicalRecord, bind_assoc]
  congr 1
  funext n
  split
  · rfl
  · dsimp only
    split
    · rw [bind_assoc]
      congr 1
      funext m
      split <;> rfl
    · rfl

/-- `AddRecord` for a record that fits into the block. -/
theorem addRecord_of_fits {w : LogWriter} {data : Bytes}
    (h : w.block_offset + kHeaderSize + data.length ≤ kBlockSize) :
    w.addRecord data = (w.emitPhysicalRecord .kFullType data >>= fun s =>
      if s.ok then fflush w.file >>= fun _ => .ret (s, w.advance data.length h)
      else .ret (s, w)) := by
  have hskip : w.skipTail = w := by
    unfold skipTail
    exact if_neg (by omega)
  have hmin : min data.length (kBlockSize - w.block_offset - kHeaderSize) = data.length := by
    omega
  have hpad : w.padTail = .ret true := by
    unfold padTail
    exact if_neg (by omega)
  rw [addRecord, addFragments, hpad, Prog.ret_bind, if_pos rfl]
  simp only [hskip, hmin, List.take_length, beq_self_eq_true, lt_irrefl, if_false]
  rfl

theorem emitPhysicalRecord_wp {type : RecordType} {ptr : Bytes} {k : Status → FileProg α}
    (hC : C fs)
    (htorn : ∀ x, x <+: recordHeader type ptr ++ ptr → C (fs.append w.file x))
    (hk : (k Status.OK).wp (disk room) Q C (fs.append w.file (recordHeader type ptr ++ ptr))) :
    (w.emitPhysicalRecord type ptr >>= k).wp (disk room) Q C fs := by
  rw [emitPhysicalRecord_bind]
  refine fwrite_wp hC (fun x hx => htorn x (hx.trans (List.prefix_append _ _))) ?_
  rw [recordHeader_length, if_neg (by simp)]
  split
  · refine fwrite_wp (htorn _ (List.prefix_append _ _)) (fun x hx => ?_) ?_
    · rw [FileSystem.append_append]
      exact htorn _ ((List.prefix_append_right_inj _).mpr hx)
    · rw [FileSystem.append_append, if_neg (by simp)]
      exact hk
  · rename_i hnil
    obtain rfl : ptr = [] := List.length_eq_zero_iff.mp (by omega)
    rwa [List.append_nil] at hk

/-- Behind an emitted fragment the writer is still in step. -/
theorem InStep.advance {n : ℕ} (h : w.InStep n) {len : ℕ}
    (hfit : w.skipTail.block_offset + kHeaderSize + len ≤ kBlockSize) :
    (w.skipTail.advance len hfit).InStep (fragStart n + kHeaderSize + len) := by
  unfold InStep LogWriter.advance
  simp only [h.skipTail_block_offset]
  simp only [kBlockSize_eq, kHeaderSize_eq]
  omega

/-- **The loop of `AddRecord`.**  A writer in step appends the bytes of the fragments and stays
in step; a crash leaves a prefix of them. -/
theorem addFragments_wp {w : LogWriter} {o : ℕ} {ptr : Bytes} {first : Bool} {fs : FileSystem}
    {Q : Status × LogWriter → FileSystem → Prop} (ho : (fs.get w.file).length = o)
    (hstep : w.InStep o) (hC : C fs)
    (htorn : ∀ x, x <+: render o (fragments o ptr first) → C (fs.append w.file x))
    (hQ : ∀ w', w'.file = w.file → w'.InStep (lastStop o (fragments o ptr first)) →
      Q (Status.OK, w') (fs.append w.file (render o (fragments o ptr first)))) :
    (w.addFragments ptr first).wp (disk room) Q C fs := by
  induction o, ptr, first using fragments.induct generalizing w fs with
  | case1 o ptr first ih =>
      obtain ⟨r, hr⟩ : ∃ r, r = firstFragment o ptr first := ⟨_, rfl⟩
      have hstop : r.stop = fragStart o + kHeaderSize + fragLen o ptr := by
        rw [hr, firstFragment_stop]
      have hbytes : List.replicate (fragStart o - o) 0 ++
          (recordHeader (.of first (fragLen o ptr == ptr.length)) (ptr.take (fragLen o ptr)) ++
            ptr.take (fragLen o ptr)) = r.bytes o := by rw [hr]; rfl
      have hlen : (fs.get w.file).length + (r.bytes o).length = r.stop := by
        rw [ho, PhysicalRecord.bytes_length (hr ▸ le_fragStart o)]
      rw [fragments, ← hr] at htorn hQ
      simp only [render, lastStop_cons] at htorn hQ
      rw [← hr] at ih
      rw [addFragments]
      refine padTail_wp hstep hC (fun x hx => htorn x ?_) ?_
      · rw [← hbytes, List.append_assoc]
        exact hx.trans (List.prefix_append _ _)
      intro fs' hC' hget happ
      simp only [if_true, hstep.fragLen_eq ptr]
      rw [← w.skipTail_file] at hget happ htorn hQ hlen
      refine emitPhysicalRecord_wp hC' (fun x hx => ?_) ?_
      · rw [happ]
        refine htorn _ (List.IsPrefix.trans ?_ (List.prefix_append _ _))
        rw [← hbytes]
        exact (List.prefix_append_right_inj _).mpr hx
      · rw [happ, hbytes]
        simp only [Status.ok_OK, if_true]
        by_cases hlt : fragLen o ptr < ptr.length
        · rw [if_pos hlt]
          rw [if_pos hlt] at htorn hQ
          refine ih hlt ?_ (hstop ▸ hstep.advance _) ?_ ?_ ?_
          · rw [← hlen]
            simp [advance]
          · exact htorn _ (List.prefix_append _ _)
          · intro x hx
            rw [show (w.skipTail.advance _ _).file = w.skipTail.file from rfl,
              FileSystem.append_append]
            exact htorn _ ((List.prefix_append_right_inj _).mpr hx)
          · intro w' hw' hin
            rw [show (w.skipTail.advance _ _).file = w.skipTail.file from rfl,
              FileSystem.append_append]
            exact hQ w' hw' hin
        · rw [if_neg hlt]
          rw [if_neg hlt, render_nil, List.append_nil] at htorn hQ
          exact fflush_wp (Prog.wp_ret (htorn _ (List.prefix_refl _))
            (hQ _ rfl (hstop ▸ hstep.advance _)))

/-- The bytes `AddRecord` appends to a file of `o` bytes. -/
def recordBytes (o : ℕ) (data : Bytes) : Bytes := render o (fragments o data true)

/-- **`AddRecord`** by a writer in step. -/
theorem addRecord_wp {w : LogWriter} {data : Bytes} {fs : FileSystem}
    {Q : Status × LogWriter → FileSystem → Prop}
    (hstep : w.InStep (fs.get w.file).length) (hC : C fs)
    (htorn : ∀ x, x <+: recordBytes (fs.get w.file).length data → C (fs.append w.file x))
    (hQ : ∀ w', w'.file = w.file →
      w'.InStep ((fs.get w.file).length + (recordBytes (fs.get w.file).length data).length) →
      Q (Status.OK, w') (fs.append w.file (recordBytes (fs.get w.file).length data))) :
    (w.addRecord data).wp (disk room) Q C fs := by
  refine addFragments_wp rfl hstep hC htorn (fun w' hw' hin => hQ w' hw' ?_)
  rwa [recordBytes, (placed_fragments _ _ _).render_length]

/-- **`AddRecord` for a list of records.** -/
theorem addRecords_wp {w : LogWriter} {ds : List Bytes} {fs : FileSystem}
    {Q : Status × LogWriter → FileSystem → Prop}
    (hstep : w.InStep (fs.get w.file).length)
    (hQ : ∀ w' fs', w'.file = w.file → w'.InStep (fs'.get w.file).length →
      fs'.get w.file = fs.get w.file ++
        render (fs.get w.file).length (physicalRecords (fs.get w.file).length ds) →
      Q (Status.OK, w') fs') :
    (w.addRecords ds).wp (disk room) Q (fun _ => True) fs := by
  induction ds generalizing w fs with
  | nil => exact Prog.wp_ret trivial (hQ w fs rfl hstep (by simp [physicalRecords]))
  | cons d ds ih =>
      rw [addRecords]
      refine Prog.wp_bind (addRecord_wp hstep trivial (fun _ _ => trivial) ?_)
      intro w' hw' hin
      simp only [Status.ok_OK, if_true]
      have hlen : ((fs.append w.file (recordBytes (fs.get w.file).length d)).get w'.file).length =
          lastStop (fs.get w.file).length (fragments (fs.get w.file).length d true) := by
        rw [hw', FileSystem.get_append, List.length_append, recordBytes,
          (placed_fragments _ _ _).render_length]
      refine ih ?_ ?_
      · rw [hw', FileSystem.get_append, List.length_append]
        exact hin
      · intro w'' fs'' hw'' hin'' hget
        rw [hlen, hw', FileSystem.get_append, List.append_assoc] at hget
        refine hQ w'' fs'' (hw''.trans hw') (hw' ▸ hin'') ?_
        rw [hget, physicalRecords, render_append]
        rfl

end LogWriter
end MiniLevelDB
