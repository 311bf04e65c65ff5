import Mathlib.Data.List.GetD
import MiniLevelDB.LogLayout
import MiniLevelDB.LogReader

/-! # What the log reader sees in a file

`next b off` is the reader's step at offset `off` of a file `b`: it accepts a physical record,
gives up the rest of a bad block, crosses a block tail too short for a header, or ends.  `Walk b
off es off'` chains steps, with the events `es` on the way, and `Scan b es` is a walk over the
whole file.  `assemble` joins the payloads of accepted fragments to records.

`readAll_of_scan` connects the reader of the source, with its buffer, to the scan.  `Walk.agree`
says that a walk sees nothing behind its end. -/

namespace MiniLevelDB

/-! ### Events -/

/-- A block is left at a bad record, or a physical record is accepted. -/
inductive Event where
  | bad
  | ok (r : PhysicalRecord)
deriving DecidableEq, Repr

/-- The end of the last accepted record, `ve` if there is none. -/
def validEnd (ve : ℕ) : List Event → ℕ
  | [] => ve
  | .bad :: es => validEnd ve es
  | .ok r :: es => validEnd r.stop es

/-- The records the fragments join to; `carry` is the unfinished record in front of them. -/
def assemble : Option Bytes → List Event → List Bytes
  | _, [] => []
  | _, .bad :: es => assemble none es
  | carry, .ok r :: es =>
      match r.type, carry with
      | .kFullType, _ => r.payload :: assemble none es
      | .kFirstType, _ => assemble (some r.payload) es
      | _, none => assemble none es
      | .kLastType, some res => (res ++ r.payload) :: assemble none es
      | _, some res => assemble (some (res ++ r.payload)) es

/-- The first record and the events behind it. -/
def firstRecord : Option Bytes → List Event → Option (Bytes × List Event)
  | _, [] => none
  | _, .bad :: es => firstRecord none es
  | carry, .ok r :: es =>
      match r.type, carry with
      | .kFullType, _ => some (r.payload, es)
      | .kFirstType, _ => firstRecord (some r.payload) es
      | _, none => firstRecord none es
      | .kLastType, some res => some (res ++ r.payload, es)
      | _, some res => firstRecord (some (res ++ r.payload)) es

theorem assemble_eq_firstRecord (carry : Option Bytes) (es : List Event) :
    assemble carry es =
      match firstRecord carry es with
      | none => []
      | some (d, rest) => d :: assemble none rest := by
  induction es generalizing carry with
  | nil => rfl
  | cons e es ih =>
      cases e with
      | bad => exact ih none
      | ok r =>
          obtain ⟨start, type, payload⟩ := r
          cases type <;> cases carry <;> first | rfl | exact ih _

theorem validEnd_append (ve : ℕ) (es fs : List Event) :
    validEnd ve (es ++ fs) = validEnd (validEnd ve es) fs := by
  induction es generalizing ve with
  | nil => rfl
  | cons e es ih => cases e <;> exact ih _

@[simp] theorem validEnd_replicate_bad (ve k : ℕ) : validEnd ve (List.replicate k .bad) = ve := by
  induction k with
  | zero => rfl
  | succ k ih => exact ih

@[simp] theorem assemble_replicate_bad (carry : Option Bytes) (k : ℕ) :
    assemble carry (List.replicate k .bad) = [] := by
  induction k generalizing carry with
  | zero => rfl
  | succ k ih => exact ih none

/-- The unfinished record behind the events. -/
def carryAfter : Option Bytes → List Event → Option Bytes
  | carry, [] => carry
  | _, .bad :: es => carryAfter none es
  | carry, .ok r :: es =>
      match r.type, carry with
      | .kFullType, _ => carryAfter none es
      | .kFirstType, _ => carryAfter (some r.payload) es
      | _, none => carryAfter none es
      | .kLastType, some _ => carryAfter none es
      | _, some res => carryAfter (some (res ++ r.payload)) es

theorem assemble_append (carry : Option Bytes) (es fs : List Event) :
    assemble carry (es ++ fs) = assemble carry es ++ assemble (carryAfter carry es) fs := by
  induction es generalizing carry with
  | nil => rfl
  | cons e es ih =>
      cases e with
      | bad => exact ih none
      | ok r =>
          obtain ⟨start, type, payload⟩ := r
          cases type <;> cases carry <;>
            first | exact ih _ | exact congrArg (_ :: ·) (ih _)

/-- Giving up blocks at the end adds no record. -/
theorem assemble_append_bad (carry : Option Bytes) (es : List Event) (k : ℕ) :
    assemble carry (es ++ List.replicate k .bad) = assemble carry es := by
  rw [assemble_append, assemble_replicate_bad, List.append_nil]

/-! ### Steps and walks -/

/-- The end of the block `off` lies in. -/
def blockEnd (off : ℕ) : ℕ := (off / kBlockSize + 1) * kBlockSize

/-- The reader's step at `off`: the event, if any, and the offset it goes on at; `none` at the
end of the file, which is where the last block is shorter than a block. -/
def next (b : Bytes) (off : ℕ) : Option (Option Event × ℕ) :=
  let limit := min b.length (blockEnd off)
  if off + kHeaderSize > limit then
    if b.length < blockEnd off then none else some (none, blockEnd off)
  else
    let len := headerLen (b.drop off)
    if off + kHeaderSize + len > limit then
      if b.length < blockEnd off then none else some (some .bad, blockEnd off)
    else
      match checkRecord (b.drop off) len with
      | none => some (some .bad, blockEnd off)
      | some (type, payload) => some (some (.ok ⟨off, type, payload⟩), off + kHeaderSize + len)

/-- Steps one after the other, and their events. -/
inductive Walk (b : Bytes) : ℕ → List Event → ℕ → Prop
  | refl (off : ℕ) : Walk b off [] off
  | step {off off' off'' : ℕ} {e : Option Event} {es : List Event} :
      next b off = some (e, off') → Walk b off' es off'' → Walk b off (e.toList ++ es) off''

/-- A walk over the whole file. -/
def Scan (b : Bytes) (es : List Event) : Prop := ∃ off, Walk b 0 es off ∧ next b off = none

theorem Walk.trans {b : Bytes} {off off' off'' : ℕ} {es fs : List Event} (h : Walk b off es off')
    (h' : Walk b off' fs off'') : Walk b off (es ++ fs) off'' := by
  induction h with
  | refl off => exact h'
  | step hn _ ih =>
      rw [List.append_assoc]
      exact .step hn (ih h')

theorem lt_blockEnd (off : ℕ) : off < blockEnd off := by
  unfold blockEnd
  rw [kBlockSize_eq]
  omega

theorem blockEnd_eq (off : ℕ) : blockEnd off = off - off % kBlockSize + kBlockSize := by
  unfold blockEnd
  rw [kBlockSize_eq]
  omega

theorem checkRecord_payload {h payload : Bytes} {len : ℕ} {type : RecordType}
    (hc : checkRecord h len = some (type, payload)) : payload = (h.drop kHeaderSize).take len := by
  unfold checkRecord at hc
  split at hc
  · cases hc
  · cases hc
  · simp only at hc
    split_ifs at hc
    exact (Prod.mk.inj (Option.some.inj hc)).2.symm

/-- The parts of a step. -/
theorem next_cases {b : Bytes} {off off' : ℕ} {e : Option Event} (h : next b off = some (e, off')) :
    (blockEnd off ≤ b.length ∧ off + kHeaderSize > blockEnd off ∧ e = none ∧ off' = blockEnd off) ∨
    (off + kHeaderSize ≤ min b.length (blockEnd off) ∧ e = some .bad ∧ off' = blockEnd off ∧
      ((blockEnd off ≤ b.length ∧ off + kHeaderSize + headerLen (b.drop off) > blockEnd off) ∨
        (off + kHeaderSize + headerLen (b.drop off) ≤ min b.length (blockEnd off) ∧
          checkRecord (b.drop off) (headerLen (b.drop off)) = none))) ∨
    (∃ type payload, e = some (.ok ⟨off, type, payload⟩) ∧
      off' = off + kHeaderSize + headerLen (b.drop off) ∧ off' ≤ min b.length (blockEnd off) ∧
      checkRecord (b.drop off) (headerLen (b.drop off)) = some (type, payload) ∧
      off' = PhysicalRecord.stop ⟨off, type, payload⟩) := by
  unfold next at h
  simp only at h
  split_ifs at h with h1 h2 h3 h4
  · obtain ⟨rfl, rfl⟩ := Prod.mk.inj (Option.some.inj h)
    exact Or.inl ⟨by omega, by omega, rfl, rfl⟩
  · obtain ⟨rfl, rfl⟩ := Prod.mk.inj (Option.some.inj h)
    exact Or.inr (Or.inl ⟨by omega, rfl, rfl, Or.inl ⟨by omega, by omega⟩⟩)
  · cases hc : checkRecord (b.drop off) (headerLen (b.drop off)) with
    | none =>
        rw [hc] at h
        obtain ⟨rfl, rfl⟩ := Prod.mk.inj (Option.some.inj h)
        exact Or.inr (Or.inl ⟨by omega, rfl, rfl, Or.inr ⟨by omega, rfl⟩⟩)
    | some p =>
        rw [hc] at h
        obtain ⟨rfl, rfl⟩ := Prod.mk.inj (Option.some.inj h)
        refine Or.inr (Or.inr ⟨p.1, p.2, rfl, rfl, by omega, rfl, ?_⟩)
        simp only [PhysicalRecord.stop, checkRecord_payload hc, List.length_take, List.length_drop]
        omega

theorem lt_of_next {b : Bytes} {off off' : ℕ} {e : Option Event} (h : next b off = some (e, off')) :
    off < off' := by
  have hh := kHeaderSize_eq
  have hb := lt_blockEnd off
  rcases next_cases h with ⟨-, -, -, rfl⟩ | ⟨-, -, rfl, -⟩ | ⟨_, _, -, rfl, -⟩ <;> omega

theorem Walk.le {b : Bytes} {off off' : ℕ} {es : List Event} (h : Walk b off es off') :
    off ≤ off' := by
  induction h with
  | refl off => exact le_refl off
  | step hn _ ih => exact (lt_of_next hn).le.trans ih

/-- From the end of the file on there is no step. -/
theorem next_of_length_le {b : Bytes} {off : ℕ} (h : b.length ≤ off) : next b off = none := by
  have := lt_blockEnd off
  have := kHeaderSize_eq
  unfold next
  simp only
  rw [if_pos (by omega), if_pos (by omega)]

/-! ### Locality -/

theorem headerLen_append {h : Bytes} (hh : kHeaderSize ≤ h.length) (t : Bytes) :
    headerLen (h ++ t) = headerLen h := by
  have := kHeaderSize_eq
  unfold headerLen
  rw [List.getD_append _ _ _ _ (by omega), List.getD_append _ _ _ _ (by omega)]

theorem checkRecord_append {h : Bytes} {len : ℕ} (hh : kHeaderSize + len ≤ h.length) (t : Bytes) :
    checkRecord (h ++ t) len = checkRecord h len := by
  have := kHeaderSize_eq
  unfold checkRecord
  rw [List.getD_append _ _ _ _ (by omega), List.drop_append_of_le_length (by omega),
    List.take_append_of_le_length (by rw [List.length_drop]; omega), decodeFixed32, decodeFixed32,
    decodeFixed_append (by omega)]

/-- A step does not look behind the offset it leads to. -/
theorem next_append {b : Bytes} {off off' : ℕ} {e : Option Event} (h : next b off = some (e, off'))
    (hle : off' ≤ b.length) (t : Bytes) : next (b ++ t) off = some (e, off') := by
  have hh := kHeaderSize_eq
  have hlt := lt_blockEnd off
  have hdrop : off ≤ b.length → (b ++ t).drop off = b.drop off ++ t := fun h =>
    List.drop_append_of_le_length h
  rcases next_cases h with ⟨h1, h2, rfl, rfl⟩ | ⟨h1, rfl, rfl, h2⟩ | ⟨type, payload, rfl, rfl, h1, h2, -⟩
  · unfold next
    simp only [List.length_append]
    rw [if_pos (by omega), if_neg (by omega)]
  · have hlen : headerLen (b.drop off ++ t) = headerLen (b.drop off) :=
      headerLen_append (by rw [List.length_drop]; omega) t
    unfold next
    simp only [List.length_append]
    rw [if_neg (by omega), hdrop (by omega), hlen]
    rcases h2 with ⟨-, h2⟩ | ⟨h2, h3⟩
    · rw [if_pos (by omega), if_neg (by omega)]
    · rw [if_neg (by omega), checkRecord_append (by rw [List.length_drop]; omega), h3]
  · have hlen : headerLen (b.drop off ++ t) = headerLen (b.drop off) :=
      headerLen_append (by rw [List.length_drop]; omega) t
    unfold next
    simp only [List.length_append]
    rw [if_neg (by omega), hdrop (by omega), hlen, if_neg (by omega),
      checkRecord_append (by rw [List.length_drop]; omega), h2]

/-- Cutting a file at or behind the offset a step leads to does not change the step. -/
theorem next_take {b : Bytes} {off off' n : ℕ} {e : Option Event} (h : next b off = some (e, off'))
    (hle : off' ≤ n) (hn : n ≤ b.length) : next (b.take n) off = some (e, off') := by
  have hh := kHeaderSize_eq
  have hlt := lt_blockEnd off
  have hlen : (b.take n).length = n := List.length_take_of_le hn
  have hdrop : off ≤ n → b.drop off = (b.take n).drop off ++ b.drop n := by
    intro h0
    rw [← List.drop_append_of_le_length (by omega), List.take_append_drop]
  rcases next_cases h with ⟨h1, h2, rfl, rfl⟩ | ⟨h1, rfl, rfl, h2⟩ | ⟨type, payload, rfl, rfl, h1, h2, -⟩
  · unfold next
    simp only [hlen]
    rw [if_pos (by omega), if_neg (by omega)]
  · have hhead : headerLen (b.drop off) = headerLen ((b.take n).drop off) := by
      rw [hdrop (by omega), headerLen_append (by rw [List.length_drop]; omega)]
    rw [hhead] at h2
    unfold next
    simp only [hlen]
    rw [if_neg (by omega)]
    rcases h2 with ⟨-, h2⟩ | ⟨h2, h3⟩
    · rw [if_pos (by omega), if_neg (by omega)]
    · rw [hdrop (by omega), checkRecord_append (by rw [List.length_drop]; omega)] at h3
      rw [if_neg (by omega), h3]
  · have hhead : headerLen (b.drop off) = headerLen ((b.take n).drop off) := by
      rw [hdrop (by omega), headerLen_append (by rw [List.length_drop]; omega)]
    rw [hhead] at h1 h2 hle ⊢
    rw [hdrop (by omega), checkRecord_append (by rw [List.length_drop]; omega)] at h2
    unfold next
    simp only [hlen]
    rw [if_neg (by omega), if_neg (by omega), h2]

theorem Walk.append {b : Bytes} {off off' : ℕ} {es : List Event} (h : Walk b off es off')
    (hle : off' ≤ b.length) (t : Bytes) : Walk (b ++ t) off es off' := by
  induction h with
  | refl off => exact .refl off
  | step hn hw ih => exact .step (next_append hn (hw.le.trans hle) t) (ih hle)

theorem Walk.take {b : Bytes} {off off' n : ℕ} {es : List Event} (h : Walk b off es off')
    (hle : off' ≤ n) (hn : n ≤ b.length) : Walk (b.take n) off es off' := by
  induction h with
  | refl off => exact .refl off
  | step hs hw ih => exact .step (next_take hs (hw.le.trans hle) hn) (ih hle)

/-- The part of a walk up to its last accepted record; behind it there are only bad blocks. -/
theorem Walk.split {b : Bytes} {off off' : ℕ} {es : List Event} (h : Walk b off es off') :
    (∃ k, es = List.replicate k .bad) ∨
    ∃ es' k v, es = es' ++ List.replicate k .bad ∧ Walk b off es' v ∧ v ≤ b.length ∧
      ∀ ve, validEnd ve es' = v := by
  induction h with
  | refl off => exact Or.inl ⟨0, rfl⟩
  | @step off off' off'' e es hn hw ih =>
      rcases ih with ⟨k, rfl⟩ | ⟨es', k, v, rfl, hw', hv, hve⟩
      · rcases next_cases hn with ⟨-, -, rfl, -⟩ | ⟨-, rfl, -, -⟩ | ⟨type, payload, rfl, -, hle, -, hstop⟩
        · exact Or.inl ⟨k, rfl⟩
        · exact Or.inl ⟨k + 1, rfl⟩
        · refine Or.inr ⟨[.ok ⟨off, type, payload⟩], k, off', rfl,
            .step hn (.refl _), by omega, fun ve => hstop.symm⟩
      · refine Or.inr ⟨e.toList ++ es', k, v, by rw [List.append_assoc], .step hn hw', hv, ?_⟩
        intro ve
        rw [validEnd_append, hve]

/-! ### The reader walks -/

namespace LogReader

/-- The reader stands at offset `off` of the file `b`. -/
structure At (b : Bytes) (r : LogReader) (off : ℕ) : Prop where
  base_mod : r.base % kBlockSize = 0
  buffer_eq : r.buffer = (b.drop r.base).take kBlockSize
  file_eq : r.file = b.drop (r.base + kBlockSize)
  eof_iff : r.eof = true ↔ b.length < r.base + kBlockSize
  pos_le : r.pos ≤ kBlockSize
  off_eq : r.base + r.pos = off

variable {b : Bytes} {r : LogReader} {off : ℕ}

theorem At.limit_eq (h : At b r off) : r.limit = min kBlockSize (b.length - r.base) := by
  rw [limit, h.buffer_eq, List.length_take, List.length_drop]

theorem At.setPos (h : At b r off) {n : ℕ} (hn : n ≤ kBlockSize) :
    At b (r.setPos n) (r.base + n) :=
  ⟨h.base_mod, h.buffer_eq, h.file_eq, h.eof_iff, hn, rfl⟩

/-- Refilling at the end of a full block. -/
theorem At.refill (h : At b r off) (heof : ¬ r.eof = true) (hpos : r.pos = kBlockSize) :
    At b r.refill.2 off ∧ r.refill.2.pos = 0 ∧ r.refill.2.valid_end = r.valid_end ∧
      (r.refill.1 = true ↔ off < b.length) := by
  have hfull : ¬ b.length < r.base + kBlockSize := fun hc => heof (h.eof_iff.mpr hc)
  have hlim := h.limit_eq
  have hb := kBlockSize_eq
  have hlim' : r.limit = kBlockSize := by omega
  have hoff := h.off_eq
  have hmod := h.base_mod
  unfold LogReader.refill
  rw [if_neg heof]
  refine ⟨⟨?_, ?_, ?_, ?_, ?_, ?_⟩, rfl, rfl, ?_⟩
  · simp only [hlim', Nat.add_mod_right, hmod]
  · simp only [hlim', h.file_eq]
  · simp only [hlim', h.file_eq, List.drop_drop]
  · simp only [hlim', h.file_eq, Bool.eq_false_iff.mpr heof, Bool.false_or, List.length_take,
      List.length_drop, decide_eq_true_eq]
    omega
  · exact Nat.zero_le _
  · simp only [hlim', Nat.add_zero]
    omega
  · simp only [limit, h.file_eq, List.length_take, List.length_drop, gt_iff_lt, decide_eq_true_eq]
    omega

/-- The constructor leaves the reader at the start of the file. -/
theorem at_new (b : Bytes) : At b (new b) 0 ∧ (new b).valid_end = 0 := by
  have hb := kBlockSize_eq
  refine ⟨⟨rfl, ?_, ?_, ?_, Nat.zero_le _, rfl⟩, rfl⟩
  · simp [new, LogReader.refill, limit]
  · simp [new, LogReader.refill, limit]
  · simp only [new, LogReader.refill, limit, Bool.false_eq_true, if_false, List.length_nil,
      List.length_take, Bool.false_or, decide_eq_true_eq]
    omega

/-- What `ReadPhysicalRecord` has to answer for a step of the walk. -/
def Answers (b : Bytes) (r : LogReader) : Option (Option Event × ℕ) → Prop
  | none => r.readPhysicalRecord.1 = .kEof ∧ r.readPhysicalRecord.2.valid_end = r.valid_end
  | some (none, off') =>
      ∃ r', r.readPhysicalRecord = r'.readPhysicalRecord ∧ At b r' off' ∧ r'.valid_end = r.valid_end
  | some (some .bad, off') =>
      r.readPhysicalRecord.1 = .kBad ∧ At b (r.readPhysicalRecord.2.setPos kBlockSize) off' ∧
        r.readPhysicalRecord.2.valid_end = r.valid_end
  | some (some (.ok p), off') =>
      r.readPhysicalRecord.1 = .kOk p.type p.payload ∧ At b r.readPhysicalRecord.2 off' ∧
        r.readPhysicalRecord.2.valid_end = p.stop

theorem Answers.congr {r' : LogReader} {s : Option (Option Event × ℕ)}
    (h : r.readPhysicalRecord = r'.readPhysicalRecord) (hv : r.valid_end = r'.valid_end)
    (ha : Answers b r' s) : Answers b r s := by
  rcases s with _ | ⟨_ | _ | p, off'⟩ <;> simp only [Answers, h, hv] at ha ⊢ <;> exact ha

theorem readPhysicalRecord_of_tail (h : r.pos + kHeaderSize > r.limit) (heof : ¬ r.eof = true) :
    r.readPhysicalRecord =
      if (r.setPos r.limit).refill.1 then (r.setPos r.limit).refill.2.readPhysicalRecord
      else (.kEof, (r.setPos r.limit).refill.2) := by
  rw [readPhysicalRecord, if_pos h, if_neg heof]

/-- The bytes the reader looks at are those of the file. -/
theorem At.drop_eq (h : At b r off) (hle : r.pos ≤ r.limit) :
    b.drop off = r.buffer.drop r.pos ++ b.drop (r.base + kBlockSize) := by
  have hsplit : b.drop r.base = r.buffer ++ b.drop (r.base + kBlockSize) := by
    rw [h.buffer_eq, ← List.drop_drop, List.take_append_drop]
  rw [← h.off_eq, ← List.drop_drop, hsplit, List.drop_append_of_le_length hle]

/-- Inside a block. -/
theorem At.answers_of_lt (h : At b r off) (hlt : r.pos < kBlockSize) : Answers b r (next b off) := by
  have hlim := h.limit_eq
  have hoff := h.off_eq
  have hb := kBlockSize_eq
  have hh := kHeaderSize_eq
  have hend : blockEnd off = r.base + kBlockSize := by
    have := h.base_mod
    rw [blockEnd_eq]
    rw [kBlockSize_eq] at *
    omega
  by_cases htail : r.pos + kHeaderSize > r.limit
  · have hnext : next b off = if b.length < blockEnd off then none else some (none, blockEnd off) := by
      unfold next
      exact if_pos (by omega)
    by_cases heof : r.eof = true
    · rw [hnext, if_pos (hend ▸ h.eof_iff.mp heof)]
      have hr : r.readPhysicalRecord = (.kEof, r) := by
        rw [readPhysicalRecord, if_pos htail, if_pos heof]
      exact ⟨by rw [hr], by rw [hr]⟩
    · have hfull : ¬ b.length < r.base + kBlockSize := fun hc => heof (h.eof_iff.mpr hc)
      rw [hnext, if_neg (hend ▸ hfull)]
      refine ⟨r.setPos kBlockSize, ?_, hend ▸ h.setPos (le_refl _), rfl⟩
      have htail' : (r.setPos kBlockSize).pos + kHeaderSize > (r.setPos kBlockSize).limit :=
        Nat.lt_add_right_iff_pos.mpr (by decide) |>.trans_le' r.buffer_le
      rw [readPhysicalRecord_of_tail htail heof, readPhysicalRecord_of_tail htail' heof]
      rfl
  · have hdrop := h.drop_eq (by omega)
    have hblen : (r.buffer.drop r.pos).length = r.limit - r.pos := List.length_drop
    have hhead : headerLen (b.drop off) = headerLen (r.buffer.drop r.pos) := by
      rw [hdrop, headerLen_append (by omega)]
    have hmin : min b.length (blockEnd off) = r.base + r.limit := by omega
    by_cases hlen : r.pos + kHeaderSize + headerLen (r.buffer.drop r.pos) > r.limit
    · have hnext : next b off =
          if b.length < blockEnd off then none else some (some .bad, blockEnd off) := by
        unfold next
        simp only [hmin, hhead]
        rw [if_neg (by omega)]
        exact if_pos (by omega)
      by_cases heof : r.eof = true
      · rw [hnext, if_pos (hend ▸ h.eof_iff.mp heof)]
        have hr : r.readPhysicalRecord = (.kEof, r) := by
          rw [readPhysicalRecord, if_neg htail]
          simp only
          rw [if_pos hlen, if_pos heof]
        exact ⟨by rw [hr], by rw [hr]⟩
      · have hfull : ¬ b.length < r.base + kBlockSize := fun hc => heof (h.eof_iff.mpr hc)
        rw [hnext, if_neg (hend ▸ hfull)]
        have hr : r.readPhysicalRecord = (.kBad, r) := by
          rw [readPhysicalRecord, if_neg htail]
          simp only
          rw [if_pos hlen, if_neg heof]
        exact ⟨by rw [hr], by rw [hr]; exact hend ▸ h.setPos (le_refl _), by rw [hr]⟩
    · have hcheck : checkRecord (b.drop off) (headerLen (r.buffer.drop r.pos)) =
          checkRecord (r.buffer.drop r.pos) (headerLen (r.buffer.drop r.pos)) := by
        rw [hdrop, checkRecord_append (by omega)]
      cases hc : checkRecord (r.buffer.drop r.pos) (headerLen (r.buffer.drop r.pos)) with
      | none =>
          have hnext : next b off = some (some .bad, blockEnd off) := by
            unfold next
            simp only [hmin, hhead, hcheck, hc]
            rw [if_neg (by omega), if_neg (by omega)]
          have hr : r.readPhysicalRecord = (.kBad, r) := by
            rw [readPhysicalRecord, if_neg htail]
            simp only [hc]
            rw [if_neg hlen]
          rw [hnext]
          exact ⟨by rw [hr], by rw [hr]; exact hend ▸ h.setPos (le_refl _), by rw [hr]⟩
      | some p =>
          obtain ⟨type, payload⟩ := p
          have hnext : next b off = some (some (.ok ⟨off, type, payload⟩),
              off + kHeaderSize + headerLen (r.buffer.drop r.pos)) := by
            unfold next
            simp only [hmin, hhead, hcheck, hc]
            rw [if_neg (by omega), if_neg (by omega)]
          have hstop : off + kHeaderSize + headerLen (r.buffer.drop r.pos) =
              PhysicalRecord.stop ⟨off, type, payload⟩ := by
            simp only [PhysicalRecord.stop, checkRecord_payload hc, List.length_take,
              List.length_drop] at hblen ⊢
            omega
          rw [hnext]
          refine ⟨?_, ⟨?_, ?_, ?_, ?_, ?_, ?_⟩, ?_⟩ <;>
            rw [readPhysicalRecord, if_neg htail] <;> simp only [hc] <;> rw [if_neg hlen]
          · exact h.base_mod
          · exact h.buffer_eq
          · exact h.file_eq
          · exact h.eof_iff
          · show r.pos + kHeaderSize + headerLen (r.buffer.drop r.pos) ≤ kBlockSize
            omega
          · simp only
            omega
          · simp only
            omega

/-- At the end of a block the reader refills first. -/
theorem At.answers (h : At b r off) : Answers b r (next b off) := by
  have hb := kBlockSize_eq
  have hh := kHeaderSize_eq
  have hoff := h.off_eq
  have hlim := h.limit_eq
  rcases Nat.lt_or_ge r.pos kBlockSize with hlt | hge
  · exact h.answers_of_lt hlt
  have hpos : r.pos = kBlockSize := le_antisymm h.pos_le hge
  have htail : r.pos + kHeaderSize > r.limit := by omega
  by_cases heof : r.eof = true
  · have := h.eof_iff.mp heof
    rw [next_of_length_le (by omega)]
    have hr : r.readPhysicalRecord = (.kEof, r) := by
      rw [readPhysicalRecord, if_pos htail, if_pos heof]
    exact ⟨by rw [hr], by rw [hr]⟩
  · have hfull : ¬ b.length < r.base + kBlockSize := fun hc => heof (h.eof_iff.mpr hc)
    have hset : r.setPos r.limit = r := by
      have : r.limit = r.pos := by omega
      rw [this]
      rfl
    obtain ⟨hat, hp0, hve, hmore⟩ := h.refill heof hpos
    have hr := readPhysicalRecord_of_tail htail heof
    rw [hset] at hr
    by_cases hm : r.refill.1 = true
    · rw [if_pos hm] at hr
      exact Answers.congr hr hve.symm (hat.answers_of_lt (by omega))
    · rw [if_neg hm] at hr
      rw [next_of_length_le (by rw [hmore] at hm; omega)]
      exact ⟨by rw [hr], by rw [hr]; exact hve⟩

theorem readRecordLoop_congr {r' : LogReader} (h : r.readPhysicalRecord = r'.readPhysicalRecord)
    (res : Bytes) (in_frag : Bool) : r.readRecordLoop res in_frag = r'.readRecordLoop res in_frag := by
  rw [readRecordLoop_eq, readRecordLoop_eq, h]

/-- The unfinished record a reader carries. -/
def carryOf (res : Bytes) (in_frag : Bool) : Option Bytes := if in_frag then some res else none

/-- What `ReadRecord` returns when the walk holds a record: the reader stands behind it. -/
theorem readRecordLoop_some {es : List Event} {last : ℕ} (hw : Walk b off es last) :
    ∀ {r : LogReader} (_ : At b r off) (res : Bytes) (in_frag : Bool) {d : Bytes} {rest : List Event},
      firstRecord (carryOf res in_frag) es = some (d, rest) →
      (r.readRecordLoop res in_frag).1 = some d ∧
        ∃ pre off', es = pre ++ rest ∧ Walk b off pre off' ∧ Walk b off' rest last ∧
          At b (r.readRecordLoop res in_frag).2 off' ∧
          (r.readRecordLoop res in_frag).2.valid_end = off' ∧ (∀ ve, validEnd ve pre = off') ∧
          assemble (carryOf res in_frag) pre = [d] ∧ carryAfter (carryOf res in_frag) pre = none ∧
          off' ≤ b.length := by
  induction hw with
  | refl off =>
      intro r hat res in_frag d rest hf
      cases hf
  | @step off off₁ last e es hn hw ih =>
      intro r hat res in_frag d rest hf
      have ha := hat.answers
      rw [hn] at ha
      rcases e with _ | _ | p
      · obtain ⟨r', hr, hat', -⟩ := ha
        obtain ⟨h1, pre, off', rfl, hpre, h2⟩ := ih hat' res in_frag hf
        rw [readRecordLoop_congr hr]
        exact ⟨h1, pre, off', rfl, .step hn hpre, h2⟩
      · obtain ⟨h1, hat', -⟩ := ha
        have hr : r.readPhysicalRecord = (.kBad, r.readPhysicalRecord.2) := Prod.ext h1 rfl
        obtain ⟨h1, pre, off', rfl, hpre, h2⟩ := ih hat' [] false hf
        rw [readRecordLoop_eq, hr]
        exact ⟨h1, .bad :: pre, off', rfl, .step hn hpre, h2⟩
      · obtain ⟨h1, hat', hve⟩ := ha
        have hr : r.readPhysicalRecord = (.kOk p.type p.payload, r.readPhysicalRecord.2) :=
          Prod.ext h1 rfl
        have hstop : off₁ = p.stop ∧ off₁ ≤ b.length := by
          rcases next_cases hn with ⟨-, -, h, -⟩ | ⟨-, h, -, -⟩ | ⟨type, payload, h, -, hle, -, hstop⟩
          · cases h
          · cases h
          · obtain rfl : p = _ := Event.ok.inj (Option.some.inj h)
            exact ⟨hstop, by omega⟩
        -- a fragment that does not end a record is read over
        have hskip : ∀ res' in_frag', r.readRecordLoop res in_frag =
              (r.readPhysicalRecord.2).readRecordLoop res' in_frag' →
            firstRecord (carryOf res' in_frag') es = some (d, rest) →
            (∀ pre, assemble (carryOf res in_frag) (.ok p :: pre) =
                assemble (carryOf res' in_frag') pre ∧
              carryAfter (carryOf res in_frag) (.ok p :: pre) =
                carryAfter (carryOf res' in_frag') pre) →
            (r.readRecordLoop res in_frag).1 = some d ∧
              ∃ pre off', Event.ok p :: es = pre ++ rest ∧ Walk b off pre off' ∧
                Walk b off' rest last ∧ At b (r.readRecordLoop res in_frag).2 off' ∧
                (r.readRecordLoop res in_frag).2.valid_end = off' ∧ (∀ ve, validEnd ve pre = off') ∧
                assemble (carryOf res in_frag) pre = [d] ∧
                carryAfter (carryOf res in_frag) pre = none ∧ off' ≤ b.length := by
          intro res' in_frag' hloop hf' hcarry
          obtain ⟨h1, pre, off', rfl, hpre, h2, h3, h4, h5, h6, h7, h8⟩ := ih hat' res' in_frag' hf'
          rw [hloop]
          exact ⟨h1, .ok p :: pre, off', rfl, .step hn hpre, h2, h3, h4, fun _ => h5 _,
            (hcarry pre).1.trans h6, (hcarry pre).2.trans h7, h8⟩
        have hlast : r.readRecordLoop res in_frag = (some d, r.readPhysicalRecord.2) → es = rest →
            assemble (carryOf res in_frag) [.ok p] = [d] →
            carryAfter (carryOf res in_frag) [.ok p] = none →
            (r.readRecordLoop res in_frag).1 = some d ∧
              ∃ pre off', Event.ok p :: es = pre ++ rest ∧ Walk b off pre off' ∧
                Walk b off' rest last ∧ At b (r.readRecordLoop res in_frag).2 off' ∧
                (r.readRecordLoop res in_frag).2.valid_end = off' ∧ (∀ ve, validEnd ve pre = off') ∧
                assemble (carryOf res in_frag) pre = [d] ∧
                carryAfter (carryOf res in_frag) pre = none ∧ off' ≤ b.length := by
          rintro hloop rfl has hcarry
          rw [hloop]
          exact ⟨rfl, [.ok p], off₁, rfl, .step hn (.refl _), hw, hat', hve.trans hstop.1.symm,
            fun _ => hstop.1.symm, has, hcarry, hstop.2⟩
        have hloop := readRecordLoop_eq r res in_frag
        rw [hr] at hloop
        obtain ⟨start, type, payload⟩ := p
        cases type with
        | kFullType =>
            obtain ⟨rfl, rfl⟩ := Prod.mk.inj (Option.some.inj hf)
            exact hlast hloop rfl rfl rfl
        | kFirstType => exact hskip payload true hloop hf fun _ => ⟨rfl, rfl⟩
        | kLastType =>
            cases in_frag with
            | false => exact hskip res false hloop hf fun _ => ⟨rfl, rfl⟩
            | true =>
                obtain ⟨rfl, rfl⟩ := Prod.mk.inj (Option.some.inj hf)
                exact hlast hloop rfl rfl rfl
        | kMiddleType | kZeroType =>
            cases in_frag with
            | false => exact hskip res false hloop hf fun _ => ⟨rfl, rfl⟩
            | true => exact hskip (res ++ payload) true hloop hf fun _ => ⟨rfl, rfl⟩

/-- What `ReadRecord` returns when the walk to the end of the file holds no record. -/
theorem readRecordLoop_none {es : List Event} {last : ℕ} (hw : Walk b off es last)
    (hend : next b last = none) :
    ∀ {r : LogReader} (_ : At b r off) (res : Bytes) (in_frag : Bool),
      firstRecord (carryOf res in_frag) es = none →
      (r.readRecordLoop res in_frag).1 = none ∧
        (r.readRecordLoop res in_frag).2.valid_end = validEnd r.valid_end es := by
  induction hw with
  | refl off =>
      intro r hat res in_frag _
      have ha := hat.answers
      rw [hend] at ha
      obtain ⟨h1, h2⟩ := ha
      have hr : r.readPhysicalRecord = (.kEof, r.readPhysicalRecord.2) := Prod.ext h1 rfl
      rw [readRecordLoop_eq, hr]
      exact ⟨rfl, h2⟩
  | @step off off₁ last e es hn hw ih =>
      intro r hat res in_frag hf
      have ha := hat.answers
      rw [hn] at ha
      rcases e with _ | _ | p
      · obtain ⟨r', hr, hat', hve⟩ := ha
        rw [readRecordLoop_congr hr, ← hve]
        exact ih hend hat' res in_frag hf
      · obtain ⟨h1, hat', hve⟩ := ha
        have hr : r.readPhysicalRecord = (.kBad, r.readPhysicalRecord.2) := Prod.ext h1 rfl
        have := ih hend hat' [] false hf
        rw [readRecordLoop_eq, hr]
        simp only [setPos, hve] at this ⊢
        exact this
      · obtain ⟨h1, hat', hve⟩ := ha
        have hr : r.readPhysicalRecord = (.kOk p.type p.payload, r.readPhysicalRecord.2) :=
          Prod.ext h1 rfl
        have ih' := fun res in_frag => ih hend hat' res in_frag
        rw [hve] at ih'
        rw [readRecordLoop_eq, hr]
        obtain ⟨start, type, payload⟩ := p
        cases type with
        | kFullType => cases hf
        | kFirstType => exact ih' payload true hf
        | kLastType =>
            cases in_frag with
            | false => exact ih' res false hf
            | true => cases hf
        | kMiddleType | kZeroType =>
            cases in_frag with
            | false => exact ih' res false hf
            | true => exact ih' (res ++ payload) true hf

/-- Reading on from a walk to the end of the file. -/
theorem readAll_walk {last : ℕ} (hend : next b last = none) {es : List Event} (h : At b r off)
    (hw : Walk b off es last) :
    r.readAll.1 = assemble none es ∧ r.readAll.2.valid_end = validEnd r.valid_end es := by
  induction r using readAll.induct generalizing off es with
  | case1 r r' hr =>
      have hcarry : carryOf [] false = none := rfl
      rw [readAll_of_none hr, assemble_eq_firstRecord]
      cases hf : firstRecord none es with
      | none =>
          have hspec := readRecordLoop_none hw hend h [] false (hcarry.symm ▸ hf)
          rw [← readRecord, hr] at hspec
          exact ⟨rfl, hspec.2⟩
      | some p =>
          have hspec := readRecordLoop_some hw h [] false (hcarry.symm ▸ hf)
          rw [← readRecord, hr] at hspec
          exact absurd hspec.1 (by simp)
  | case2 r record r' hr hlt ih =>
      have hcarry : carryOf [] false = none := rfl
      rw [readAll_of_some hr, assemble_eq_firstRecord]
      cases hf : firstRecord none es with
      | none =>
          have hspec := readRecordLoop_none hw hend h [] false (hcarry.symm ▸ hf)
          rw [← readRecord, hr] at hspec
          exact absurd hspec.1 (by simp)
      | some p =>
          have hspec := readRecordLoop_some hw h [] false (hcarry.symm ▸ hf)
          rw [← readRecord, hr] at hspec
          obtain ⟨h1, pre, off', rfl, -, hw', hat', hve, hpre, -⟩ := hspec
          obtain ⟨h2, h3⟩ := ih hat' hw'
          obtain rfl : record = p.1 := Option.some.inj h1
          refine ⟨by rw [h2], ?_⟩
          simp only
          rw [h3, hve, validEnd_append, hpre]

end LogReader

/-- Reading a file: its records and `valid_end()`. -/
def readLog (b : Bytes) : List Bytes × ℕ :=
  ((LogReader.new b).readAll.1, (LogReader.new b).readAll.2.valid_end)

/-- **The reader returns what the scan assembles to**, and its valid end. -/
theorem readLog_of_scan {b : Bytes} {es : List Event} (h : Scan b es) :
    readLog b = (assemble none es, validEnd 0 es) := by
  obtain ⟨off, hw, hend⟩ := h
  obtain ⟨hat, hve⟩ := LogReader.at_new b
  obtain ⟨h1, h2⟩ := LogReader.readAll_walk hend hat hw
  rw [readLog, h1, h2, hve]

/-- Every file has a scan. -/
theorem exists_scan (b : Bytes) : ∃ es, Scan b es := by
  suffices h : ∀ n off, b.length - off ≤ n → ∃ es last, Walk b off es last ∧ next b last = none by
    obtain ⟨es, last, hw, hend⟩ := h _ 0 (le_refl _)
    exact ⟨es, last, hw, hend⟩
  intro n
  induction n with
  | zero =>
      intro off h
      exact ⟨[], off, .refl off, next_of_length_le (by omega)⟩
  | succ n ih =>
      intro off h
      cases hn : next b off with
      | none => exact ⟨[], off, .refl off, hn⟩
      | some p =>
          obtain ⟨e, off'⟩ := p
          have hlt := lt_of_next hn
          obtain ⟨es, last, hw, hend⟩ := ih off' (by omega)
          exact ⟨_, last, .step hn hw, hend⟩

end MiniLevelDB
