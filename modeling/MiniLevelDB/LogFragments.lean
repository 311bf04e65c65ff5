import MiniLevelDB.LogLayout

/-! # The shape of a log

What the rules of `db/log_format.h` say of the bytes `AddRecord` writes: no physical record crosses
the end of a block (`InBlocks`), and the types of a record's fragments chain them together
(`Chained`). -/

namespace MiniLevelDB

/-- Physical records written one after the other from `o` on: each lies inside one block, has a length
for a 16-bit field, and starts behind fewer than seven bytes of padding, which end with a block. -/
def InBlocks : ℕ → List PhysicalRecord → Prop
  | _, [] => True
  | o, r :: rs =>
      (o ≤ r.start ∧ r.start < o + kHeaderSize ∧ (r.start = o ∨ r.start % kBlockSize = 0)) ∧
        r.start / kBlockSize = (r.stop - 1) / kBlockSize ∧ r.payload.length < 2 ^ 16 ∧ InBlocks r.stop rs

/-- The types of the fragments of one record. -/
def Chained (types : List RecordType) : Prop :=
  types = [.kFullType] ∨ ∃ k, types = .kFirstType :: (List.replicate k .kMiddleType ++ [.kLastType])

/-- The fragments of the record `data`. -/
def FragmentsOf (data : Bytes) (rs : List PhysicalRecord) : Prop :=
  Chained (rs.map PhysicalRecord.type) ∧ rs.flatMap PhysicalRecord.payload = data

theorem fragStart_bounds (o : ℕ) :
    o ≤ fragStart o ∧ fragStart o < o + kHeaderSize ∧
      (fragStart o = o ∨ fragStart o % kBlockSize = 0) := by
  have hh := kHeaderSize_eq
  unfold fragStart
  split
  · rename_i hshort
    rw [kBlockSize_eq] at hshort ⊢
    omega
  · exact ⟨le_refl o, by omega, Or.inl rfl⟩

/-- The placement of the records keeps the rules of the format. -/
theorem Placed.inBlocks {o : ℕ} {rs : List PhysicalRecord} (h : Placed o rs) : InBlocks o rs := by
  induction h with
  | nil o => trivial
  | @cons o r rs hstart hfit _ _ ih =>
      have hbounds := fragStart_bounds o
      rw [← hstart] at hbounds
      refine ⟨hbounds, ?_, ?_, ih⟩
      · rw [PhysicalRecord.stop]
        simp only [kBlockSize_eq, kHeaderSize_eq] at hfit ⊢
        omega
      · simp only [kBlockSize_eq, kHeaderSize_eq] at hfit
        omega

/-- The payloads of the fragments are the record. -/
theorem fragments_payload (o : ℕ) (data : Bytes) (first : Bool) :
    (fragments o data first).flatMap PhysicalRecord.payload = data := by
  induction o, data, first using fragments.induct with
  | case1 o data first ih =>
      have hpayload : (firstFragment o data first).payload = data.take (fragLen o data) := rfl
      rw [fragments, List.flatMap_cons, hpayload]
      by_cases hlt : fragLen o data < data.length
      · rw [if_pos hlt, ih hlt, List.take_append_drop]
      · rw [if_neg hlt, List.flatMap_nil, List.append_nil, List.take_of_length_le (not_lt.mp hlt)]

/-- Behind the first fragment there are middle fragments, then the last one. -/
theorem fragments_types_later (o : ℕ) (data : Bytes) :
    ∃ k, (fragments o data false).map PhysicalRecord.type =
      List.replicate k .kMiddleType ++ [.kLastType] := by
  obtain ⟨first, hfirst⟩ : ∃ first, first = false := ⟨_, rfl⟩
  rw [← hfirst]
  induction o, data, first using fragments.induct with
  | case1 o data first ih =>
      subst hfirst
      have htype : (firstFragment o data false).type = .of false (fragLen o data == data.length) := rfl
      rw [fragments, List.map_cons, htype]
      by_cases hlt : fragLen o data < data.length
      · obtain ⟨k, hk⟩ := ih hlt rfl
        rw [if_pos hlt, hk, beq_eq_false_iff_ne.mpr hlt.ne]
        exact ⟨k + 1, rfl⟩
      · rw [if_neg hlt, beq_iff_eq.mpr (le_antisymm (fragLen_le o data) (not_lt.mp hlt))]
        exact ⟨0, rfl⟩

/-- **The fragments of a record.** -/
theorem fragmentsOf (o : ℕ) (data : Bytes) : FragmentsOf data (fragments o data true) := by
  refine ⟨?_, fragments_payload o data true⟩
  have htype : (firstFragment o data true).type = .of true (fragLen o data == data.length) := rfl
  rw [fragments, List.map_cons, htype]
  by_cases hlt : fragLen o data < data.length
  · obtain ⟨k, hk⟩ := fragments_types_later (firstFragment o data true).stop (data.drop (fragLen o data))
    rw [if_pos hlt, hk, beq_eq_false_iff_ne.mpr hlt.ne]
    exact Or.inr ⟨k, rfl⟩
  · rw [if_neg hlt, beq_iff_eq.mpr (le_antisymm (fragLen_le o data) (not_lt.mp hlt))]
    exact Or.inl rfl

/-- The records of a list of records, each with its fragments. -/
theorem physicalRecords_fragments (o : ℕ) (ds : List Bytes) :
    ∃ frags, physicalRecords o ds = frags.flatten ∧ List.Forall₂ FragmentsOf ds frags := by
  induction ds generalizing o with
  | nil => exact ⟨[], rfl, .nil⟩
  | cons d ds ih =>
      obtain ⟨frags, heq, hfrags⟩ := ih (lastStop o (fragments o d true))
      refine ⟨fragments o d true :: frags, ?_, .cons (fragmentsOf o d) hfrags⟩
      rw [physicalRecords, heq, List.flatten_cons]

namespace LogWriter

/-- The sizes in one turn of the loop of `AddRecord`. -/
theorem loop_sizes (w : LogWriter) (ptr : Bytes) :
    w.block_offset ≤ kBlockSize ∧ w.skipTail.block_offset + kHeaderSize ≤ kBlockSize ∧
      min ptr.length (kBlockSize - w.skipTail.block_offset - kHeaderSize) ≤ ptr.length ∧
      min ptr.length (kBlockSize - w.skipTail.block_offset - kHeaderSize) < 2 ^ 16 := by
  have hskip := w.skipTail_add_header_le
  refine ⟨w.block_offset_le, hskip, min_le_left _ _, ?_⟩
  rw [kBlockSize_eq]
  omega

/-- **What `AddRecord` writes.**  Records are added by one writer behind the bytes of a file.  The
calls return, and behind each of them and in each turn of the loop the sizes are in bounds.  The bytes
written are the physical records of the records and the padding between them. -/
theorem addRecords_layout (file : FILE) (fs : FileSystem) (ds : List Bytes) :
    (∀ (w : LogWriter) (ptr : Bytes),
      w.block_offset ≤ kBlockSize ∧ w.skipTail.block_offset + kHeaderSize ≤ kBlockSize ∧
        min ptr.length (kBlockSize - w.skipTail.block_offset - kHeaderSize) ≤ ptr.length ∧
        min ptr.length (kBlockSize - w.skipTail.block_offset - kHeaderSize) < 2 ^ 16) ∧
    ∃ w fs' frags, ((LogWriter.new file (fs.get file).length).addRecords ds).run (disk unbounded) fs =
        .done (Status.OK, w) fs' ∧
      fs'.get file = fs.get file ++ render (fs.get file).length frags.flatten ∧
      InBlocks (fs.get file).length frags.flatten ∧ List.Forall₂ FragmentsOf ds frags := by
  constructor
  · exact loop_sizes
  · obtain ⟨⟨s, w⟩, fs', hrun, rfl, hget⟩ := run_unbounded_of_wp
      (Q := fun a fs' => a.1 = Status.OK ∧ fs'.get file = fs.get file ++
        render (fs.get file).length (physicalRecords (fs.get file).length ds))
      (@addRecords_wp unbounded (LogWriter.new file (fs.get file).length) ds fs _
        (inStep_new file _) (fun w' fs' _ _ hget => ⟨rfl, hget⟩))
    obtain ⟨frags, heq, hfrags⟩ := physicalRecords_fragments (fs.get file).length ds
    have hplaced := (placed_physicalRecords (fs.get file).length ds).inBlocks
    rw [heq] at hget hplaced
    exact ⟨w, fs', frags, hrun, hget, hplaced, hfrags⟩

end LogWriter
end MiniLevelDB
