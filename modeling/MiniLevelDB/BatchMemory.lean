import MiniLevelDB.BatchGrammar

/-! # Reading a batch in memory

`Iterate` and the decoders below it, over the bytes of `rep_` and the slices the code walks with.  A
byte is fetched at a position, and a fetch outside the bytes or a `remove_prefix` longer than the
slice is a fault.  `iterateAt_eq` says that there is none, and that the result is that of `iterate`;
with the grammar this gives `iterate_grammar`. -/

namespace MiniLevelDB

/-- A `Slice` of the bytes: a position and a size. -/
structure Span where
  data : ℕ
  size : ℕ

/-- `*p`. -/
def fetch (mem : Bytes) (p : ℕ) : Except Fault UInt8 :=
  match mem[p]? with
  | some byte => .ok byte
  | none => .error .outOfBounds

/-- `DecodeFixed` of `width` bytes at a position. -/
def fetchFixed (mem : Bytes) (p width : ℕ) : Except Fault ℕ :=
  if p + width ≤ mem.length then .ok (decodeFixed width (mem.drop p)) else .error .outOfBounds

namespace Span

/-- `remove_prefix`. -/
def remove_prefix (s : Span) (n : ℕ) : Except Fault Span :=
  if n ≤ s.size then .ok ⟨s.data + n, s.size - n⟩ else .error .outOfBounds

/-- The bytes of a slice. -/
def read (mem : Bytes) (s : Span) : Except Fault Bytes :=
  if s.data + s.size ≤ mem.length then .ok ((mem.drop s.data).take s.size) else .error .outOfBounds

theorem remove_prefix_size {s t : Span} {n : ℕ} (h : s.remove_prefix n = .ok t) :
    t.size + n = s.size := by
  unfold Span.remove_prefix at h
  split_ifs at h with hle
  obtain rfl := Except.ok.inj h
  exact Nat.sub_add_cancel hle

end Span

/-- `GetVarint32Ptr`. -/
def getVarint32Ptr (mem : Bytes) (limit shift result p : ℕ) : Except Fault (Option (ℕ × ℕ)) :=
  if shift ≤ 28 ∧ p < limit then
    match fetch mem p with
    | .error f => .error f
    | .ok byte =>
        if byte.toNat &&& 128 ≠ 0 then
          getVarint32Ptr mem limit (shift + 7)
            (result ||| (((byte.toNat &&& 127) <<< shift) % 2 ^ 32)) (p + 1)
        else .ok (some (result ||| ((byte.toNat <<< shift) % 2 ^ 32), p + 1))
  else .ok none
termination_by limit - p

/-- `GetVarint32`. -/
def getVarint32At (mem : Bytes) (input : Span) : Except Fault (Option (ℕ × Span)) :=
  match getVarint32Ptr mem (input.data + input.size) 0 0 input.data with
  | .error f => .error f
  | .ok none => .ok none
  | .ok (some (value, q)) =>
      match input.remove_prefix (q - input.data) with
      | .error f => .error f
      | .ok input => .ok (some (value, input))

/-- `GetLengthPrefixedSlice`. -/
def getLengthPrefixedSliceAt (mem : Bytes) (input : Span) : Except Fault (Option (Span × Span)) :=
  match getVarint32At mem input with
  | .error f => .error f
  | .ok none => .ok none
  | .ok (some (len, input)) =>
      if input.size ≥ len then
        match input.remove_prefix len with
        | .error f => .error f
        | .ok rest => .ok (some (⟨input.data, len⟩, rest))
      else .ok none

namespace WriteBatch

/-- One record of `Iterate`, whose handler reads the slices. -/
def readRecordAt (mem : Bytes) (tag : UInt8) (input : Span) :
    Except Fault (Except Status (WriteOp × Span)) := do
  if tag = 1 then
    match ← getLengthPrefixedSliceAt mem input with
    | none => return .error (Status.corruption "bad WriteBatch Put")
    | some (key, input) =>
        match ← getLengthPrefixedSliceAt mem input with
        | none => return .error (Status.corruption "bad WriteBatch Put")
        | some (value, input) =>
            let key ← key.read mem
            let value ← value.read mem
            return .ok (.put key value, input)
  else if tag = 0 then
    match ← getLengthPrefixedSliceAt mem input with
    | none => return .error (Status.corruption "bad WriteBatch Delete")
    | some (key, input) =>
        let key ← key.read mem
        return .ok (.delete key, input)
  else return .error (Status.corruption "unknown WriteBatch tag")

end WriteBatch

theorem getLengthPrefixedSliceAt_size {mem : Bytes} {input key rest : Span}
    (h : getLengthPrefixedSliceAt mem input = .ok (some (key, rest))) : rest.size ≤ input.size := by
  unfold getLengthPrefixedSliceAt getVarint32At at h
  split at h
  · cases h
  · cases h
  · rename_i len input' hv
    split at hv
    · cases hv
    · cases hv
    · split at hv
      · cases hv
      · rename_i input'' hq
        obtain ⟨rfl, rfl⟩ := Prod.mk.inj (Option.some.inj (Except.ok.inj hv))
        have h1 := Span.remove_prefix_size hq
        split_ifs at h with hle
        · split at h
          · cases h
          · rename_i rest' hr
            obtain ⟨-, rfl⟩ := Prod.mk.inj (Option.some.inj (Except.ok.inj h))
            have h2 := Span.remove_prefix_size hr
            omega
        · cases h

namespace WriteBatch

theorem readRecordAt_size {mem : Bytes} {tag : UInt8} {input rest : Span} {op : WriteOp}
    (h : readRecordAt mem tag input = .ok (.ok (op, rest))) : rest.size ≤ input.size := by
  have hread : ∀ {α : Type} {s : Span} {f : Bytes → Except Fault α} {a : α},
      (s.read mem >>= f) = .ok a → ∃ bytes, f bytes = .ok a := by
    intro α s f a hs
    unfold Span.read at hs
    split at hs
    · exact ⟨_, hs⟩
    · cases hs
  unfold readRecordAt at h
  split at h
  · cases hk : getLengthPrefixedSliceAt mem input with
    | error f =>
        rw [hk] at h
        cases h
    | ok r =>
        rw [hk] at h
        cases r with
        | none => cases h
        | some r =>
            obtain ⟨key, input'⟩ := r
            change (getLengthPrefixedSliceAt mem input' >>= _) = _ at h
            cases hv : getLengthPrefixedSliceAt mem input' with
            | error f =>
                rw [hv] at h
                cases h
            | ok r =>
                rw [hv] at h
                cases r with
                | none => cases h
                | some r =>
                    obtain ⟨value, input''⟩ := r
                    obtain ⟨key, h⟩ := hread h
                    obtain ⟨value, h⟩ := hread h
                    obtain ⟨-, rfl⟩ := Prod.mk.inj (Except.ok.inj (Except.ok.inj h))
                    exact (getLengthPrefixedSliceAt_size hv).trans (getLengthPrefixedSliceAt_size hk)
  · split at h
    · cases hk : getLengthPrefixedSliceAt mem input with
      | error f =>
          rw [hk] at h
          cases h
      | ok r =>
          rw [hk] at h
          cases r with
          | none => cases h
          | some r =>
              obtain ⟨key, input'⟩ := r
              obtain ⟨key, h⟩ := hread h
              obtain ⟨-, rfl⟩ := Prod.mk.inj (Except.ok.inj (Except.ok.inj h))
              exact getLengthPrefixedSliceAt_size hk
    · cases h

/-- The loop of `Iterate`. -/
def iterateSpan (mem : Bytes) (input : Span) (seq remaining : ℕ) :
    Except Fault (Status × List (ℕ × WriteOp)) :=
  if input.size = 0 then
    if remaining ≠ 0 then .ok (Status.corruption "WriteBatch has wrong count", []) else .ok (Status.OK, [])
  else if remaining = 0 then .ok (Status.corruption "WriteBatch has too many records", [])
  else
    match fetch mem input.data with
    | .error f => .error f
    | .ok tag =>
        match _ : input.remove_prefix 1 with
        | .error f => .error f
        | .ok input' =>
            match _ : readRecordAt mem tag input' with
            | .error f => .error f
            | .ok (.error s) => .ok (s, [])
            | .ok (.ok (op, rest)) =>
                match iterateSpan mem rest ((seq + 1) % 2 ^ 64) (remaining - 1) with
                | .error f => .error f
                | .ok r => .ok (r.1, (seq, op) :: r.2)
termination_by input.size
decreasing_by
  have h1 := Span.remove_prefix_size (by assumption)
  have h2 := readRecordAt_size (by assumption)
  omega

/-- `Iterate` on the bytes of `rep_`. -/
def iterateAt (mem : Bytes) : Except Fault (Status × List (ℕ × WriteOp)) := do
  let input ← Span.remove_prefix ⟨0, mem.length⟩ kHeader
  let seq ← fetchFixed mem 0 8
  let n ← fetchFixed mem 8 4
  -- the count is an `int` on its way to 64 bits
  let count : ℤ := if n < 2 ^ 31 then n else (n : ℤ) - 2 ^ 32
  iterateSpan mem input seq (count % 2 ^ 64).toNat

end WriteBatch

/-! ### Slices that reach to the end -/

/-- The slice of the last bytes. -/
def tailSpan (mem x : Bytes) : Span := ⟨mem.length - x.length, x.length⟩

@[simp] theorem tailSpan_data (mem x : Bytes) : (tailSpan mem x).data = mem.length - x.length := rfl

@[simp] theorem tailSpan_size (mem x : Bytes) : (tailSpan mem x).size = x.length := rfl

theorem fetch_tail {mem x : Bytes} {b : UInt8} (h : b :: x <:+ mem) :
    fetch mem (mem.length - (b :: x).length) = .ok b := by
  obtain ⟨pre, rfl⟩ := h
  have hat : (pre ++ b :: x)[(pre ++ b :: x).length - (b :: x).length]? = some b := by
    rw [List.length_append, Nat.add_sub_cancel, List.getElem?_append_right (le_refl _), Nat.sub_self]
    rfl
  rw [fetch, hat]

theorem remove_prefix_tail {mem x y : Bytes} (h : y <:+ x) (hx : x <:+ mem) :
    Span.remove_prefix (tailSpan mem x) (x.length - y.length) = .ok (tailSpan mem y) := by
  have h1 := h.length_le
  have h2 := hx.length_le
  have hdata : mem.length - x.length + (x.length - y.length) = mem.length - y.length := by omega
  have hsize : x.length - (x.length - y.length) = y.length := by omega
  rw [Span.remove_prefix, tailSpan_size, tailSpan_data, if_pos (Nat.sub_le _ _), hdata, hsize, tailSpan]

/-- The bytes in front of a tail. -/
theorem read_front {mem s x : Bytes} (h : s ++ x <:+ mem) :
    Span.read mem ⟨(tailSpan mem (s ++ x)).data, s.length⟩ = .ok s := by
  obtain ⟨pre, rfl⟩ := h
  have hdata : (tailSpan (pre ++ (s ++ x)) (s ++ x)).data = pre.length := by
    rw [tailSpan, List.length_append, Nat.add_sub_cancel]
  rw [Span.read, hdata, if_pos (by simp only [List.length_append]; omega), List.drop_left, List.take_left]

theorem getVarint32Ptr_tail {mem x : Bytes} (h : x <:+ mem) (shift result : ℕ) :
    getVarint32Ptr mem mem.length shift result (mem.length - x.length) =
      .ok ((getVarintPtr 32 28 shift result x).map fun r => (r.1, mem.length - r.2.length)) := by
  induction x generalizing shift result with
  | nil =>
      rw [getVarint32Ptr, getVarintPtr, if_neg (by simp)]
      rfl
  | cons b x ih =>
      have hx : x <:+ mem := (List.suffix_cons b x).trans h
      have hle := h.length_le
      have hnext : mem.length - (b :: x).length + 1 = mem.length - x.length := by
        rw [List.length_cons] at hle ⊢
        omega
      rw [getVarint32Ptr, getVarintPtr]
      by_cases hs : shift ≤ 28
      · rw [if_pos ⟨hs, by rw [List.length_cons] at hle ⊢; omega⟩, if_pos hs, fetch_tail h]
        simp only [hnext]
        by_cases hb : b.toNat &&& 128 ≠ 0
        · rw [if_pos hb, if_pos hb, ih hx]
        · rw [if_neg hb, if_neg hb]
          rfl
      · rw [if_neg fun e => hs e.1, if_neg hs]
        rfl

theorem suffix_of_getVarint32 {x rest : Bytes} {v : ℕ} (h : getVarint32 x = some (v, rest)) :
    rest <:+ x := by
  obtain ⟨bytes, rfl, -⟩ := getVarint32_iff.mp h
  exact List.suffix_append bytes rest

theorem getVarint32At_tail {mem x : Bytes} (h : x <:+ mem) :
    getVarint32At mem (tailSpan mem x) =
      .ok ((getVarint32 x).map fun r => (r.1, tailSpan mem r.2)) := by
  have hlimit : (tailSpan mem x).data + (tailSpan mem x).size = mem.length :=
    Nat.sub_add_cancel h.length_le
  have hptr := getVarint32Ptr_tail h 0 0
  rw [← getVarint32] at hptr
  rw [getVarint32At, hlimit, tailSpan_data, hptr]
  cases hv : getVarint32 x with
  | none => rfl
  | some r =>
      obtain ⟨v, rest⟩ := r
      have hrest := suffix_of_getVarint32 hv
      have h1 := hrest.length_le
      have h2 := h.length_le
      have hcount : mem.length - rest.length - (mem.length - x.length) = x.length - rest.length := by
        omega
      simp only [Option.map_some, hcount, remove_prefix_tail hrest h]

theorem getLengthPrefixedSliceAt_none {mem x : Bytes} (h : x <:+ mem)
    (hx : getLengthPrefixedSlice x = none) : getLengthPrefixedSliceAt mem (tailSpan mem x) = .ok none := by
  unfold getLengthPrefixedSlice at hx
  rw [getLengthPrefixedSliceAt, getVarint32At_tail h]
  cases hv : getVarint32 x with
  | none => rfl
  | some r =>
      obtain ⟨len, rest⟩ := r
      simp only [hv] at hx
      split_ifs at hx with hle
      simp only [Option.map_some, tailSpan_size]
      exact if_neg hle

theorem getLengthPrefixedSliceAt_some {mem x s rest : Bytes} (h : x <:+ mem)
    (hx : getLengthPrefixedSlice x = some (s, rest)) :
    rest <:+ mem ∧ ∃ span, getLengthPrefixedSliceAt mem (tailSpan mem x) =
      .ok (some (span, tailSpan mem rest)) ∧ span.read mem = .ok s := by
  unfold getLengthPrefixedSlice at hx
  rw [getLengthPrefixedSliceAt, getVarint32At_tail h]
  cases hv : getVarint32 x with
  | none => simp [hv] at hx
  | some r =>
      obtain ⟨len, input⟩ := r
      simp only [hv] at hx
      split_ifs at hx with hle
      obtain ⟨hs, hrest⟩ := Prod.mk.inj (Option.some.inj hx)
      have hlen : s.length = len := by rw [← hs, List.length_take_of_le hle]
      have hsplit : input = s ++ rest := by rw [← hs, ← hrest, List.take_append_drop]
      have hinput : input <:+ mem := (suffix_of_getVarint32 hv).trans h
      have htail : rest <:+ input := hsplit ▸ List.suffix_append s rest
      have hcount : input.length - rest.length = len := by
        rw [hsplit, List.length_append, Nat.add_sub_cancel, hlen]
      have hremove := remove_prefix_tail htail hinput
      rw [hcount] at hremove
      refine ⟨htail.trans hinput, ⟨(tailSpan mem input).data, len⟩, ?_, ?_⟩
      · simp only [Option.map_some, tailSpan_size, if_pos hle, hremove]
      · rw [hsplit, ← hlen]
        exact read_front (hsplit ▸ hinput)

namespace WriteBatch

/-- A record at the front of a tail is read as the decoder reads it. -/
theorem readRecordAt_tail {mem x : Bytes} (h : x <:+ mem) (tag : UInt8) :
    readRecordAt mem tag (tailSpan mem x) =
      .ok ((readRecord tag x).map fun r => (r.1, tailSpan mem r.2)) := by
  unfold readRecordAt readRecord
  by_cases hput : tag = 1
  · rw [if_pos hput, if_pos hput]
    cases hk : getLengthPrefixedSlice x with
    | none =>
        rw [getLengthPrefixedSliceAt_none h hk]
        rfl
    | some r =>
        obtain ⟨key, rest⟩ := r
        obtain ⟨hrest, kspan, hkspan, hkey⟩ := getLengthPrefixedSliceAt_some h hk
        rw [hkspan]
        change (getLengthPrefixedSliceAt mem (tailSpan mem rest) >>= _) = _
        dsimp only
        cases hv : getLengthPrefixedSlice rest with
        | none =>
            rw [getLengthPrefixedSliceAt_none hrest hv]
            rfl
        | some r' =>
            obtain ⟨value, rest'⟩ := r'
            obtain ⟨-, vspan, hvspan, hvalue⟩ := getLengthPrefixedSliceAt_some hrest hv
            rw [hvspan]
            change (kspan.read mem >>= _) = _
            rw [hkey]
            change (vspan.read mem >>= _) = _
            rw [hvalue]
            rfl
  · rw [if_neg hput, if_neg hput]
    by_cases hdelete : tag = 0
    · rw [if_pos hdelete, if_pos hdelete]
      cases hk : getLengthPrefixedSlice x with
      | none =>
          rw [getLengthPrefixedSliceAt_none h hk]
          rfl
      | some r =>
          obtain ⟨key, rest⟩ := r
          obtain ⟨-, kspan, hkspan, hkey⟩ := getLengthPrefixedSliceAt_some h hk
          rw [hkspan]
          change (kspan.read mem >>= _) = _
          rw [hkey]
          rfl
    · rw [if_neg hdelete, if_neg hdelete]
      rfl

/-- One turn of the loop whose tag byte is there. -/
theorem iterateSpan_turn {mem : Bytes} {input input' : Span} {seq remaining : ℕ} {tag : UInt8}
    (hsize : input.size ≠ 0) (hrem : remaining ≠ 0) (hfetch : fetch mem input.data = .ok tag)
    (hremove1 : input.remove_prefix 1 = .ok input') :
    iterateSpan mem input seq remaining =
      match readRecordAt mem tag input' with
      | .error f => .error f
      | .ok (.error s) => .ok (s, [])
      | .ok (.ok (op, rest)) =>
          match iterateSpan mem rest ((seq + 1) % 2 ^ 64) (remaining - 1) with
          | .error f => .error f
          | .ok r => .ok (r.1, (seq, op) :: r.2) := by
  rw [iterateSpan, if_neg hsize, if_neg hrem, hfetch]
  dsimp only
  split
  · rename_i f hf
    rw [hremove1] at hf
    cases hf
  · rename_i input'' hp
    rw [hremove1] at hp
    obtain rfl := Except.ok.inj hp
    split <;> simp [*]

/-- **The loop over the last bytes of a batch has no fault.** -/
theorem iterateSpan_tail {mem x : Bytes} (h : x <:+ mem) (seq remaining : ℕ) :
    iterateSpan mem (tailSpan mem x) seq remaining = .ok (iterateLoop x seq remaining) := by
  have hremove1 : ∀ {tag : UInt8} {input : Bytes}, tag :: input <:+ mem →
      Span.remove_prefix (tailSpan mem (tag :: input)) 1 = .ok (tailSpan mem input) := by
    intro tag input h
    have hremove := remove_prefix_tail (List.suffix_cons tag input) h
    rwa [List.length_cons, Nat.add_sub_cancel_left] at hremove
  induction x, seq, remaining using iterateLoop.induct with
  | case1 seq remaining hne =>
      rw [iterateSpan, iterateLoop, tailSpan_size, if_pos List.length_nil, if_pos hne, if_pos hne]
  | case2 seq remaining hzero =>
      rw [iterateSpan, iterateLoop, tailSpan_size, if_pos List.length_nil, if_neg hzero, if_neg hzero]
  | case3 seq tag input =>
      have hsize : (tag :: input).length ≠ 0 := Nat.succ_ne_zero _
      rw [iterateSpan, iterateLoop, tailSpan_size, if_neg hsize, if_pos rfl, if_pos rfl]
  | case4 seq remaining tag input hne s hs =>
      have hinput : input <:+ mem := (List.suffix_cons tag input).trans h
      rw [iterateSpan_turn (Nat.succ_ne_zero _) hne (fetch_tail h) (hremove1 h),
        readRecordAt_tail hinput tag, hs, iterateLoop_error hne hs]
      rfl
  | case5 seq remaining tag input hne op rest hs ih =>
      have hinput : input <:+ mem := (List.suffix_cons tag input).trans h
      obtain ⟨n, rfl⟩ := Nat.exists_eq_succ_of_ne_zero hne
      have hrest : rest <:+ mem := by
        obtain ⟨bytes, heq, -⟩ := readRecord_iff.mp hs
        exact (heq ▸ List.suffix_append bytes rest).trans h
      rw [iterateSpan_turn (Nat.succ_ne_zero _) hne (fetch_tail h) (hremove1 h),
        readRecordAt_tail hinput tag, hs, iterateLoop_cons hs]
      have hloop := ih hrest
      simp only [Except.map, Nat.succ_sub_one] at hloop ⊢
      rw [hloop]

/-- **`Iterate` reads only the bytes it was given**, and the result is that of the decoder. -/
theorem iterateAt_rep (b : WriteBatch) : iterateAt b.rep = .ok b.iterate := by
  have hheader := b.header_le
  have h12 : kHeader = 12 := rfl
  have hinput : Span.remove_prefix ⟨0, b.rep.length⟩ kHeader = .ok (tailSpan b.rep (b.rep.drop kHeader)) := by
    rw [Span.remove_prefix, if_pos hheader, tailSpan, List.length_drop, Nat.sub_sub_self hheader,
      Nat.zero_add]
  have hseq : fetchFixed b.rep 0 8 = .ok b.sequence := by
    rw [fetchFixed, if_pos (by omega), List.drop_zero]
    rfl
  have hcount : fetchFixed b.rep 8 4 = .ok b.storedCount := by
    rw [fetchFixed, if_pos (by omega)]
    rfl
  rw [iterateAt, hinput]
  change (fetchFixed b.rep 0 8 >>= _) = _
  rw [hseq]
  change (fetchFixed b.rep 8 4 >>= _) = _
  rw [hcount]
  exact iterateSpan_tail (List.drop_suffix _ _) _ _

/-! ### Main result -/

/-- A record takes two bytes at least. -/
theorem areRecords_length {bytes : Bytes} {ops : List WriteOp} (h : AreRecords bytes ops) :
    2 * ops.length ≤ bytes.length := by
  have hslice : ∀ {bytes s : Bytes}, IsSlice bytes s → 1 ≤ bytes.length := by
    rintro bytes s ⟨len, rfl, init, last, rfl, -⟩
    simp only [List.length_append, List.length_singleton]
    omega
  obtain ⟨records, rfl, hrecords⟩ := h
  induction hrecords with
  | nil => simp
  | @cons record op records ops hrecord _ ih =>
      have htwo : 2 ≤ record.length := by
        cases op with
        | put key value =>
            obtain ⟨k, v, rfl, hk, -⟩ := hrecord
            have := hslice hk
            rw [List.length_cons, List.length_append]
            omega
        | delete key =>
            obtain ⟨k, rfl, hk⟩ := hrecord
            have := hslice hk
            rw [List.length_cons]
            omega
      rw [List.flatten_cons, List.length_append, List.length_cons]
      omega

/-- **What `Iterate` accepts and what it hands over**, for any bytes of a batch.  It returns OK exactly
if the bytes behind the header are as many records as the header says.  In any case it hands over the
records of the longest part at their front that consists of records, up to that number, with
consecutive sequence numbers, and it has read nothing but the bytes. -/
theorem iterate_grammar {contents : Bytes} (hmin : kHeader ≤ contents.length)
    (hmax : contents.length < 2 ^ 32) :
    ∃ b, setContents contents = .ok b ∧ iterateAt contents = .ok b.iterate ∧
      (b.iterate.1 = Status.OK ↔
        ∃ ops, ops.length = decodeFixed32 (contents.drop 8) ∧ AreRecords (contents.drop kHeader) ops) ∧
      ∃ ops, LongestRecords (contents.drop kHeader) ops ∧
        b.iterate.2 =
          numberedFrom (decodeFixed64 contents) (ops.take (decodeFixed32 (contents.drop 8))) := by
  obtain ⟨b, hrep⟩ : ∃ b : WriteBatch, b.rep = contents := ⟨⟨contents, hmin⟩, rfl⟩
  subst hrep
  have hset : setContents b.rep = .ok b := dif_neg (not_lt.mpr hmin)
  have hseq : b.sequence < 2 ^ 64 := decodeFixed_lt 8 b.rep
  have hstored : b.storedCount < 2 ^ 32 := decodeFixed_lt 4 (b.rep.drop 8)
  obtain ⟨hcalls, hstatus⟩ := iterateLoop_eq hseq (b.rep.drop kHeader) (b.count % 2 ^ 64).toNat
  rw [← iterate] at hcalls hstatus
  -- there are fewer records than a count that is negative as an `int`
  have hfew : (splitRecords (b.rep.drop kHeader)).1.length < 2 ^ 31 := by
    obtain ⟨front, hsplit, hfront⟩ := splitRecords_front (b.rep.drop kHeader)
    have h1 := areRecords_length hfront
    have h2 := congrArg List.length hsplit
    rw [List.length_append, List.length_drop] at h2
    omega
  have hcount : (b.count % 2 ^ 64).toNat = b.storedCount ∨
      2 ^ 31 ≤ (b.count % 2 ^ 64).toNat ∧ 2 ^ 31 ≤ b.storedCount := by
    unfold count
    split
    · exact Or.inl (by omega)
    · exact Or.inr ⟨by omega, by omega⟩
  have htake : (splitRecords (b.rep.drop kHeader)).1.take (b.count % 2 ^ 64).toNat =
      (splitRecords (b.rep.drop kHeader)).1.take b.storedCount := by
    rcases hcount with h | ⟨h1, h2⟩
    · rw [h]
    · rw [List.take_of_length_le (by omega), List.take_of_length_le (by omega)]
  refine ⟨b, hset, iterateAt_rep b, ?_, _, splitRecords_longest _, hcalls.trans (by rw [htake]; rfl)⟩
  rw [hstatus]
  constructor
  · rintro ⟨hrest, hlen⟩
    refine ⟨(splitRecords (b.rep.drop kHeader)).1, ?_, areRecords_iff.mpr (Prod.ext rfl hrest)⟩
    rcases hcount with h | ⟨h1, -⟩
    · rw [hlen, h]
      rfl
    · omega
  · rintro ⟨ops, hlen, hops⟩
    have hsplit := areRecords_iff.mp hops
    rw [hsplit] at hfew ⊢
    dsimp only at hfew
    have hstoredCount : ops.length = b.storedCount := hlen
    rcases hcount with h | ⟨-, h2⟩
    · exact ⟨rfl, by rw [h, hstoredCount]⟩
    · omega

theorem iterate_grammar_unknown_tag :
    ∃ b, setContents (List.replicate 8 0 ++ [2, 0, 0, 0] ++ [0, 1, 97, 7]) = .ok b ∧
      iterateAt (List.replicate 8 0 ++ [2, 0, 0, 0] ++ [0, 1, 97, 7]) = .ok b.iterate := by
  obtain ⟨b, hset, hat, -⟩ := @iterate_grammar
    (List.replicate 8 0 ++ [2, 0, 0, 0] ++ [0, 1, 97, 7]) (by decide) (by decide)
  exact ⟨b, hset, hat⟩

end WriteBatch
end MiniLevelDB
