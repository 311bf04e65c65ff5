import MiniLevelDB.LogRoundTrip
import MiniLevelDB.TableFormat

/-! # What the log reader accepts

Whatever bytes a log file holds, `ReadRecord` makes nothing up.  Each record it returns is, fragment for fragment,
in the file as a writer frames it: a full physical record, or a first, middle and a last ones, one directly behind
the other, each with the header that belongs to its payload (`readLog_framed`). -/

namespace MiniLevelDB

/-- The record an event accepts. -/
def Event.record? : Event → Option PhysicalRecord
  | .bad => none
  | .ok r => some r

/-! ### Accepted physical records -/

theorem RecordType.toByte_of_ofByte {t : UInt8} {type : RecordType} (h : RecordType.ofByte t = some type) :
    type.toByte = t := by
  unfold RecordType.ofByte at h
  split_ifs at h with h₀ h₁ h₂ h₃ h₄ <;> obtain rfl := Option.some.inj h
  · exact h₀.symm
  · exact h₁.symm
  · exact h₂.symm
  · exact h₃.symm
  · exact h₄.symm

/-- The length field is told by the length. -/
theorem lengthField (l₀ l₁ : UInt8) :
    UInt8.ofNat ((l₀.toNat ||| l₁.toNat <<< 8) &&& 0xff) = l₀ ∧
      UInt8.ofNat (((l₀.toNat ||| l₁.toNat <<< 8) >>> 8) &&& 0xff) = l₁ := by
  have h₀ := UInt8.toNat_lt l₀
  have h₁ := UInt8.toNat_lt l₁
  rw [or_shiftLeft_eq_add h₀, show (0xff : ℕ) = 2 ^ 8 - 1 by rfl, Nat.and_two_pow_sub_one_eq_mod,
    Nat.and_two_pow_sub_one_eq_mod, Nat.shiftRight_eq_div_pow]
  constructor
  · apply UInt8.toNat_inj.mp
    rw [UInt8.toNat_ofNat']
    omega
  · apply UInt8.toNat_inj.mp
    rw [UInt8.toNat_ofNat']
    omega

/-- A physical record that passes the checks has the header of its payload. -/
theorem prefix_of_checkRecord {h payload : Bytes} {type : RecordType} (hlen : kHeaderSize + headerLen h ≤ h.length)
    (hcheck : checkRecord h (headerLen h) = some (type, payload)) :
    recordHeader type payload ++ payload <+: h := by
  have hseven : 7 ≤ h.length := by
    rw [kHeaderSize_eq] at hlen
    omega
  match h, hseven with
  | c₀ :: c₁ :: c₂ :: c₃ :: l₀ :: l₁ :: t :: rest, _ =>
      obtain ⟨len, hlen'⟩ : ∃ len, len = headerLen (c₀ :: c₁ :: c₂ :: c₃ :: l₀ :: l₁ :: t :: rest) := ⟨_, rfl⟩
      have hfield := lengthField l₀ l₁
      rw [show l₀.toNat ||| l₁.toNat <<< 8 = len from hlen'.symm] at hfield
      rw [← hlen'] at hlen hcheck
      have hpayload : payload = rest.take len := checkRecord_payload hcheck
      have hcount : payload.length = len := by
        rw [hpayload, List.length_take]
        simp only [List.length_cons, kHeaderSize_eq] at hlen
        omega
      unfold checkRecord at hcheck
      split at hcheck
      · cases hcheck
      · cases hcheck
      · rename_i type' _ htype
        simp only at hcheck
        split_ifs at hcheck with hcrc
        obtain ⟨rfl, -⟩ := Prod.mk.inj (Option.some.inj hcheck)
        have ht : type'.toByte = t := RecordType.toByte_of_ofByte htype
        have hnumber : (maskCrc32c (extend (value [t]) payload)).toNat = decodeFixed 4 [c₀, c₁, c₂, c₃] := by
          rw [hpayload]
          exact (not_not.mp hcrc).trans
            (@decodeFixed_append 4 [c₀, c₁, c₂, c₃] (le_refl 4) (l₀ :: l₁ :: t :: rest))
        have hcrc' : crcField (extend (value [t]) payload) = [c₀, c₁, c₂, c₃] := by
          rw [crcField, hnumber]
          exact encodeFixed_decodeFixed [c₀, c₁, c₂, c₃]
        refine ⟨rest.drop len, ?_⟩
        rw [recordHeader, ht, hcrc', hcount, hfield.1, hfield.2, List.append_assoc, hpayload,
          List.take_append_drop]
        rfl

/-- The physical record lies in the file, in one block, with its header in front of it. -/
structure LiesIn (b : Bytes) (r : PhysicalRecord) : Prop where
  bytes : recordHeader r.type r.payload ++ r.payload <+: b.drop r.start
  type_ne : r.type ≠ .kZeroType
  in_block : r.start % kBlockSize + kHeaderSize + r.payload.length ≤ kBlockSize

section

variable {b : Bytes} {off off' : ℕ} {r : PhysicalRecord} {es : List Event}

theorem checkRecord_type_ne {h payload : Bytes} {len : ℕ} {type : RecordType}
    (hcheck : checkRecord h len = some (type, payload)) : type ≠ .kZeroType := by
  unfold checkRecord at hcheck
  split at hcheck
  · cases hcheck
  · cases hcheck
  · rename_i type' hne htype
    simp only at hcheck
    split_ifs at hcheck
    obtain ⟨rfl, -⟩ := Prod.mk.inj (Option.some.inj hcheck)
    exact hne

/-- What the reader's step accepts. -/
theorem liesIn_of_next (h : next b off = some (some (.ok r), off')) :
    r.start = off ∧ off' = r.stop ∧ LiesIn b r := by
  have hh := kHeaderSize_eq
  have hend := blockEnd_eq off
  rcases next_cases h with ⟨-, -, he, -⟩ | ⟨-, he, -⟩ | ⟨type, payload, he, hoff, hle, hcheck, hstop⟩
  · cases he
  · cases he
  · obtain rfl : r = ⟨off, type, payload⟩ := Event.ok.inj (Option.some.inj he)
    have hstop' := hstop
    rw [PhysicalRecord.stop] at hstop'
    have hmod := Nat.mod_le off kBlockSize
    refine ⟨rfl, hstop, prefix_of_checkRecord ?_ hcheck, checkRecord_type_ne hcheck, ?_⟩
    · dsimp only
      rw [List.length_drop]
      omega
    · dsimp only at hstop' ⊢
      omega

/-- The records accepted on the way lie in the file, one behind the other. -/
theorem Walk.accepted (h : Walk b off es off') :
    (es.filterMap Event.record?).Pairwise (fun r r' => r.stop ≤ r'.start) ∧
      ∀ r, Event.ok r ∈ es → LiesIn b r ∧ off ≤ r.start ∧ r.stop ≤ off' := by
  induction h with
  | refl off => exact ⟨.nil, fun r hr => absurd hr List.not_mem_nil⟩
  | @step off off₁ off' e es hn hw ih =>
      obtain ⟨hpairwise, hall⟩ := ih
      have hlt := lt_of_next hn
      have hrest : ∀ r, Event.ok r ∈ es → LiesIn b r ∧ off ≤ r.start ∧ r.stop ≤ off' := fun r hr =>
        ⟨(hall r hr).1, hlt.le.trans (hall r hr).2.1, (hall r hr).2.2⟩
      rcases e with _ | (_ | r)
      · exact ⟨hpairwise, hrest⟩
      · refine ⟨hpairwise, fun r hr => hrest r ?_⟩
        rcases List.mem_cons.mp hr with hr | hr
        · cases hr
        · exact hr
      · obtain ⟨rfl, rfl, hlies⟩ := liesIn_of_next hn
        refine ⟨List.pairwise_cons.mpr ⟨fun r' hr' => ?_, hpairwise⟩, fun r' hr' => ?_⟩
        · obtain ⟨e, he, hrecord⟩ := List.mem_filterMap.mp hr'
          cases e with
          | bad => cases hrecord
          | ok r'' =>
              obtain rfl := Option.some.inj hrecord
              exact (hall _ he).2.1
        · rcases List.mem_cons.mp hr' with hr' | hr'
          · obtain rfl := Event.ok.inj hr'
            exact ⟨hlies, le_refl _, hw.le⟩
          · exact hrest r' hr'

/-- No accepted record ends behind the valid end. -/
theorem Walk.stop_le_validEnd (h : Walk b off es off') {ve : ℕ} (hve : ve ≤ off) :
    ve ≤ validEnd ve es ∧ ∀ r, Event.ok r ∈ es → r.stop ≤ validEnd ve es := by
  induction h generalizing ve with
  | refl off => exact ⟨le_refl _, fun r hr => absurd hr List.not_mem_nil⟩
  | @step off off₁ off' e es hn hw ih =>
      have hlt := lt_of_next hn
      rcases e with _ | (_ | r)
      · exact ih (hve.trans hlt.le)
      · obtain ⟨hle, hall⟩ := @ih ve (hve.trans hlt.le)
        refine ⟨hle, fun r hr => hall r ?_⟩
        rcases List.mem_cons.mp hr with hr | hr
        · cases hr
        · exact hr
      · obtain ⟨rfl, rfl, -⟩ := liesIn_of_next hn
        obtain ⟨hle, hall⟩ := @ih r.stop (le_refl _)
        refine ⟨(hve.trans hlt.le).trans hle, fun r' hr' => ?_⟩
        rcases List.mem_cons.mp hr' with hr' | hr'
        · obtain rfl := Event.ok.inj hr'
          exact hle
        · exact hall r' hr'

end

/-! ### Records -/

/-- What the fragments hold. -/
def joinedPayloads (rs : List PhysicalRecord) : Bytes := (rs.map PhysicalRecord.payload).flatten

/-- A full record, or a first, middle and a last ones. -/
def Framed (rs : List PhysicalRecord) : Prop :=
  rs.map PhysicalRecord.type = [.kFullType] ∨
    ∃ n, rs.map PhysicalRecord.type = .kFirstType :: (List.replicate n .kMiddleType ++ [.kLastType])

/-- The fragments of a record whose last one the reader has not seen; the next one would be at `off`. -/
structure Unfinished (off : ℕ) (rs : List PhysicalRecord) : Prop where
  types : ∃ n, rs.map PhysicalRecord.type = .kFirstType :: List.replicate n .kMiddleType
  placed : ∃ o, Placed o rs ∧ fragStart (lastStop o rs) = fragStart off

/-- The records the fragments join to are framed ones. -/
def Joins (carry : Option (List PhysicalRecord)) (es : List Event) : Prop :=
  ∃ gs : List (List PhysicalRecord), assemble (carry.map joinedPayloads) es = gs.map joinedPayloads ∧
    (∀ g ∈ gs, Framed g ∧ ∃ o, Placed o g) ∧
      gs.flatten.Sublist (carry.getD [] ++ es.filterMap Event.record?)

section

variable {b : Bytes} {off off' : ℕ} {r : PhysicalRecord} {rs : List PhysicalRecord} {es : List Event}

@[simp] theorem joinedPayloads_append (rs : List PhysicalRecord) (r : PhysicalRecord) :
    joinedPayloads (rs ++ [r]) = joinedPayloads rs ++ r.payload := by
  simp [joinedPayloads]

/-- A record that fits where it is is where a writer puts it. -/
theorem LiesIn.fragStart_eq (h : LiesIn b r) : fragStart r.start = r.start := by
  have hfit := h.in_block
  rw [fragStart, if_neg (by omega)]

theorem LiesIn.placed (h : LiesIn b r) : Placed r.start [r] :=
  .cons h.fragStart_eq.symm h.in_block h.type_ne (.nil _)

/-- The first fragment of a record. -/
theorem LiesIn.unfinished (h : LiesIn b r) (htype : r.type = .kFirstType) : Unfinished r.stop [r] :=
  ⟨⟨0, by simp [htype]⟩, r.start, h.placed, rfl⟩

/-- A fragment behind an unfinished record continues it. -/
theorem Unfinished.placed_append (h : Unfinished r.start rs) (hr : LiesIn b r) :
    ∃ o, Placed o (rs ++ [r]) ∧ lastStop o (rs ++ [r]) = r.stop := by
  obtain ⟨o, hplaced, hstart⟩ := h.placed
  refine ⟨o, hplaced.append (.cons ?_ hr.in_block hr.type_ne (.nil _)), by simp⟩
  rw [hstart, hr.fragStart_eq]

/-- The step over a block's tail does not move the place of the next fragment. -/
theorem fragStart_blockEnd (h : off + kHeaderSize > blockEnd off) :
    fragStart (blockEnd off) = fragStart off := by
  have hh := kHeaderSize_eq
  have hsize := kBlockSize_eq
  have hend := blockEnd_eq off
  have hmod : off % kBlockSize < kBlockSize := Nat.mod_lt _ (by omega)
  have hle := Nat.mod_le off kBlockSize
  have hzero : blockEnd off % kBlockSize = 0 := Nat.mul_mod_left _ _
  rw [fragStart, fragStart, if_neg (by omega), if_pos (by omega)]
  omega

/-- One more record, found whole, and those behind it. -/
theorem Joins.cons {carry : Option (List PhysicalRecord)} {g : List PhysicalRecord} (h : Joins none es)
    (hframed : Framed g) (hplaced : ∃ o, Placed o g)
    (hassemble : assemble (carry.map joinedPayloads) (.ok r :: es) = joinedPayloads g :: assemble none es)
    (hsub : g.Sublist (carry.getD [] ++ [r])) : Joins carry (.ok r :: es) := by
  obtain ⟨gs, hgs, hall, hflat⟩ := h
  refine ⟨g :: gs, ?_, ?_, ?_⟩
  · rw [hassemble, List.map_cons, ← hgs]
    rfl
  · intro g' hg'
    rcases List.mem_cons.mp hg' with rfl | hg'
    · exact ⟨hframed, hplaced⟩
    · exact hall g' hg'
  · have happend := hsub.append hflat
    simpa [Event.record?] using happend

/-- Fragments read over. -/
theorem Joins.skip {carry carry' : Option (List PhysicalRecord)} {e : Event} (h : Joins carry' es)
    (hassemble : assemble (carry.map joinedPayloads) (e :: es) = assemble (carry'.map joinedPayloads) es)
    (hsub : (carry'.getD []).Sublist (carry.getD [] ++ e.record?.toList)) : Joins carry (e :: es) := by
  obtain ⟨gs, hgs, hall, hflat⟩ := h
  refine ⟨gs, hassemble.trans hgs, hall, hflat.trans ?_⟩
  have happend := hsub.append (List.Sublist.refl (es.filterMap Event.record?))
  rw [List.append_assoc] at happend
  cases e <;> exact happend

/-- A walk joins framed records, whatever unfinished record it starts with. -/
theorem Walk.joins (h : Walk b off es off') : ∀ {carry : Option (List PhysicalRecord)},
    (∀ rs, carry = some rs → Unfinished off rs) → Joins carry es := by
  induction h with
  | refl off =>
      intro carry hcarry
      exact ⟨[], rfl, fun g hg => absurd hg List.not_mem_nil, List.nil_sublist _⟩
  | @step off off₁ off' e es hn hw ih =>
      intro carry hcarry
      have hnone : Joins none es := ih (fun rs hrs => by cases hrs)
      rcases e with _ | (_ | r)
      · -- the tail of the block is crossed
        refine ih (fun rs hrs => ?_)
        obtain ⟨htypes, o, hplaced, hstart⟩ := hcarry rs hrs
        rcases next_cases hn with ⟨-, hgt, -, rfl⟩ | ⟨-, he, -⟩ | ⟨_, _, he, -⟩
        · exact ⟨htypes, o, hplaced, hstart.trans (fragStart_blockEnd hgt).symm⟩
        · cases he
        · cases he
      · exact hnone.skip rfl (List.nil_sublist _)
      · obtain ⟨rfl, rfl, hlies⟩ := liesIn_of_next hn
        obtain ⟨start, type, payload⟩ := r
        cases type with
        | kZeroType => exact absurd rfl hlies.type_ne
        | kFullType =>
            exact hnone.cons (.inl rfl) ⟨_, hlies.placed⟩ (by simp [joinedPayloads, assemble])
              (List.sublist_append_right _ _)
        | kFirstType =>
            refine Joins.skip (@ih (some [⟨start, .kFirstType, payload⟩]) ?_) (by simp [joinedPayloads, assemble])
              (List.sublist_append_right _ _)
            intro rs hrs
            obtain rfl := Option.some.inj hrs
            exact hlies.unfinished rfl
        | kMiddleType =>
            cases carry with
            | none => exact hnone.skip rfl (List.nil_sublist _)
            | some rs =>
                obtain ⟨n, htypes⟩ := (hcarry rs rfl).types
                obtain ⟨o, hplaced, hstop⟩ := (hcarry rs rfl).placed_append hlies
                refine Joins.skip (@ih (some (rs ++ [⟨start, .kMiddleType, payload⟩])) ?_)
                  (by simp [assemble]) (List.Sublist.refl _)
                intro rs' hrs'
                obtain rfl := Option.some.inj hrs'
                refine ⟨⟨n + 1, ?_⟩, o, hplaced, by rw [hstop]⟩
                rw [List.map_append, htypes, List.replicate_succ']
                rfl
        | kLastType =>
            cases carry with
            | none => exact hnone.skip rfl (List.nil_sublist _)
            | some rs =>
                obtain ⟨n, htypes⟩ := (hcarry rs rfl).types
                obtain ⟨o, hplaced, -⟩ := (hcarry rs rfl).placed_append hlies
                refine hnone.cons (.inr ⟨n, ?_⟩) ⟨o, hplaced⟩ (by simp [assemble]) (List.Sublist.refl _)
                rw [List.map_append, htypes]
                rfl

end

/-- **The reader makes nothing up.**  Whatever the file holds, each record `ReadRecord` returns is in it as a
writer frames it: the fragments have the types of one record, follow each other without a gap, have the headers
of their payloads, lie behind the ones of the record before, and end before `valid_end()`. -/
theorem readLog_framed (b : Bytes) : ∃ gs : List (List PhysicalRecord),
    (readLog b).1 = gs.map joinedPayloads ∧ (∀ g ∈ gs, Framed g ∧ ∃ o, Placed o g) ∧
      (∀ r ∈ gs.flatten, LiesIn b r ∧ r.stop ≤ (readLog b).2) ∧
        gs.flatten.Pairwise (fun r r' => r.stop ≤ r'.start) := by
  obtain ⟨es, hscan⟩ := exists_scan b
  obtain ⟨off, hwalk, -⟩ := id hscan
  obtain ⟨gs, hgs, hall, hflat⟩ := @Walk.joins _ _ _ _ hwalk none (fun rs hrs => by cases hrs)
  obtain ⟨hpairwise, haccepted⟩ := hwalk.accepted
  rw [readLog_of_scan hscan]
  refine ⟨gs, hgs, hall, fun r hr => ?_, hpairwise.sublist hflat⟩
  obtain ⟨e, he, hrecord⟩ := List.mem_filterMap.mp (hflat.subset hr)
  cases e with
  | bad => cases hrecord
  | ok r' =>
      obtain rfl := Option.some.inj hrecord
      exact ⟨(haccepted _ he).1, (hwalk.stop_le_validEnd (le_refl 0)).2 _ he⟩

end MiniLevelDB
