import MiniLevelDB.BlockLayout
import MiniLevelDB.Crc32c
import MiniLevelDB.FileOps

/-! # Table format

`table/format.cc`: block handles, the footer, and how a block goes into a file and comes out of it.
A block is followed by a trailer, its type and a masked checksum over type and contents
(`withTrailer`).  `readBlock` reads through a handle that may hold any two 64-bit numbers, from a
file that may deliver less than it is asked for. -/

namespace MiniLevelDB

open Effect Posix

def kTableMagicNumber : ℕ := 0xdb4775248b80fb57

def kBlockTrailerSize : ℕ := 5

def kNoCompression : UInt8 := 0

/-- `BlockHandle`: where a block lies, without its trailer. -/
structure BlockHandle where
  offset : ℕ
  size : ℕ
deriving DecidableEq, Repr

namespace BlockHandle

def kMaxEncodedLength : ℕ := 10 + 10

/-- `EncodeTo`. -/
def encode (h : BlockHandle) : Bytes := putVarint64 h.offset ++ putVarint64 h.size

/-- `DecodeFrom`: the handle and the input behind it. -/
def decodeFrom (input : Bytes) : Except Status (BlockHandle × Bytes) :=
  match getVarint64 input with
  | none => .error (Status.corruption "bad block handle")
  | some (offset, input) =>
      match getVarint64 input with
      | none => .error (Status.corruption "bad block handle")
      | some (size, input) => .ok (⟨offset, size⟩, input)

end BlockHandle

/-- `Footer`. -/
structure Footer where
  metaindex_handle : BlockHandle
  index_handle : BlockHandle
deriving DecidableEq, Repr

namespace Footer

def kEncodedLength : ℕ := 2 * BlockHandle.kMaxEncodedLength + 8

/-- `EncodeTo`. -/
def encode (f : Footer) : Bytes :=
  resizeBytes (f.metaindex_handle.encode ++ f.index_handle.encode) (2 * BlockHandle.kMaxEncodedLength) ++
    (encodeFixed32 (kTableMagicNumber &&& 0xffffffff) ++ encodeFixed32 (kTableMagicNumber >>> 32))

/-- `DecodeFrom`.  The input left is `none` when the last `remove_prefix` takes more than the
handles have left of it. -/
def decodeFrom (input : Bytes) : Except Status (Footer × Option Bytes) :=
  if input.length < kEncodedLength then .error (Status.corruption "not an sstable (too small)")
  else if decodeFixed64 (input.drop (kEncodedLength - 8)) ≠ kTableMagicNumber then
    .error (Status.corruption "bad magic number")
  else
    match BlockHandle.decodeFrom input with
    | .error s => .error s
    | .ok (metaindex_handle, input) =>
        match BlockHandle.decodeFrom input with
        | .error s => .error s
        | .ok (index_handle, input) =>
            .ok (⟨metaindex_handle, index_handle⟩,
              if kEncodedLength ≤ input.length then some (input.drop kEncodedLength) else none)

end Footer

/-- The checksum of a block: over the type byte, then the contents. -/
def blockCrc (type : UInt8) (contents : Bytes) : Crc := extend (value [type]) contents

/-- The trailer `WriteBlock` puts behind the contents. -/
def blockTrailer (contents : Bytes) : Bytes :=
  kNoCompression :: crcField (blockCrc kNoCompression contents)

/-- A block as it lies in the file. -/
def withTrailer (contents : Bytes) : Bytes := contents ++ blockTrailer contents

/-- `WriteBlock`. -/
def writeBlock (file : FILE) (contents : Bytes) : FileProg (Status × BlockHandle) :=
  ftell file >>= fun
  | none => .ret (Status.ioError (ascii "ftell failed"), ⟨0, 0⟩)
  | some off =>
      let handle := BlockHandle.mk off contents.length
      fwrite file contents >>= fun n =>
        if n ≠ contents.length then .ret (Status.ioError (ascii "while writing block"), handle)
        else
          fwrite file (blockTrailer contents) >>= fun n =>
            if n ≠ kBlockTrailerSize then
              .ret (Status.ioError (ascii "while writing block trailer"), handle)
            else .ret (Status.OK, handle)

/-- `std::string::max_size`, as it is in C++17. -/
def maxStringSize : ℕ := 2 ^ 62 - 1

/-- `ReadBlock`: the contents, or the error status. -/
def readBlock (file : RFile) (handle : BlockHandle) : Except Fault (Except Status Bytes) :=
  -- the offset becomes a signed number, and `fseek` refuses a negative one
  if handle.offset ≥ 2 ^ 63 then .ok (.error (Status.ioError (ascii "while seeking to block")))
  else
    let len := (handle.size + kBlockTrailerSize) % 2 ^ 64
    if len > maxStringSize then .error .lengthError
    else
      let scratch := file.pread handle.offset len
      if scratch.length ≠ len then .ok (.error (Status.ioError (ascii "while reading block")))
      else
        match scratch[handle.size]? with
        | none => .error .outOfBounds
        | some type =>
            if type ≠ kNoCompression then .ok (.error (Status.corruption "bad block type"))
            else if unmaskCrc32c (BitVec.ofNat 32 (decodeFixed32 (scratch.drop (handle.size + 1)))) ≠
                blockCrc type (scratch.take handle.size) then
              .ok (.error (Status.corruption "block checksum mismatch"))
            else .ok (.ok (scratch.take handle.size))

/-! ### Reading back what was written -/

@[simp] theorem blockTrailer_length (contents : Bytes) :
    (blockTrailer contents).length = kBlockTrailerSize := by
  simp [blockTrailer, kBlockTrailerSize]

@[simp] theorem withTrailer_length (contents : Bytes) :
    (withTrailer contents).length = contents.length + kBlockTrailerSize := by
  simp [withTrailer]

/-- The handles whose numbers fit into 64 bits. -/
def BlockHandle.Fits (h : BlockHandle) : Prop := h.offset < 2 ^ 64 ∧ h.size < 2 ^ 64

theorem BlockHandle.encode_length_le (h : BlockHandle) : h.encode.length ≤ kMaxEncodedLength := by
  have h1 := putVarint64_length_le h.offset
  have h2 := putVarint64_length_le h.size
  rw [encode, List.length_append]
  unfold kMaxEncodedLength
  omega

theorem BlockHandle.decodeFrom_encode {h : BlockHandle} (hf : h.Fits) (t : Bytes) :
    decodeFrom (h.encode ++ t) = .ok (h, t) := by
  rw [decodeFrom, encode, List.append_assoc, getVarint64_putVarint64 hf.1]
  simp only [getVarint64_putVarint64 hf.2]

/-- The bytes in front of the magic number, and how many they are. -/
theorem Footer.resize_handles (f : Footer) :
    ∃ zeros, resizeBytes (f.metaindex_handle.encode ++ f.index_handle.encode)
        (2 * BlockHandle.kMaxEncodedLength) =
      f.metaindex_handle.encode ++ (f.index_handle.encode ++ zeros) ∧
      (f.metaindex_handle.encode ++ (f.index_handle.encode ++ zeros)).length = 40 := by
  have h1 := f.metaindex_handle.encode_length_le
  have h2 := f.index_handle.encode_length_le
  unfold BlockHandle.kMaxEncodedLength at *
  refine ⟨List.replicate (40 - (f.metaindex_handle.encode ++ f.index_handle.encode).length) 0, ?_, ?_⟩
  · rw [resizeBytes, List.take_of_length_le (by rw [List.length_append]; omega), List.append_assoc]
  · simp only [List.length_append, List.length_replicate]
    omega

@[simp] theorem Footer.encode_length (f : Footer) : f.encode.length = kEncodedLength := by
  obtain ⟨zeros, h1, h2⟩ := f.resize_handles
  rw [encode, h1, List.length_append, h2]
  rfl

/-- The bytes of the two handles. -/
def Footer.handlesLength (f : Footer) : ℕ :=
  f.metaindex_handle.encode.length + f.index_handle.encode.length

theorem BlockHandle.two_le_encode_length (h : BlockHandle) : 2 ≤ h.encode.length := by
  have h1 := putVarint64_length_pos h.offset
  have h2 := putVarint64_length_pos h.size
  rw [encode, List.length_append]
  omega

/-- What `DecodeFrom` makes of a footer and the bytes behind it: the last `remove_prefix` takes the
length of the whole footer from an input that the handles have already left. -/
theorem Footer.decodeFrom_encode_left {f : Footer} (h1 : f.metaindex_handle.Fits)
    (h2 : f.index_handle.Fits) (t : Bytes) :
    decodeFrom (f.encode ++ t) =
      .ok (f, if f.handlesLength ≤ t.length then some (t.drop f.handlesLength) else none) := by
  obtain ⟨zeros, hz, hlen⟩ := f.resize_handles
  obtain ⟨magic, hmagic⟩ : ∃ magic, magic = encodeFixed32 (kTableMagicNumber &&& 0xffffffff) ++
      encodeFixed32 (kTableMagicNumber >>> 32) := ⟨_, rfl⟩
  have hfixed : magic = encodeFixed64 kTableMagicNumber := hmagic.trans (by decide)
  have hfront : f.encode ++ t = f.metaindex_handle.encode ++ (f.index_handle.encode ++
      (zeros ++ (magic ++ t))) := by
    rw [encode, hz, ← hmagic]
    simp only [List.append_assoc]
  have hnumber : decodeFixed64 ((f.encode ++ t).drop (kEncodedLength - 8)) = kTableMagicNumber := by
    have hdrop : (f.encode ++ t).drop (kEncodedLength - 8) = magic ++ t := by
      rw [encode, hz, ← hmagic, List.append_assoc]
      exact List.drop_left' hlen
    rw [hdrop, hfixed, decodeFixed64_encodeFixed64 (by decide)]
  -- what the handles leave: the zeros, the magic number and the tail
  have hmagiclen : magic.length = 8 := by rw [hfixed, encodeFixed64_length]
  have hpad : f.handlesLength + (zeros ++ magic).length = kEncodedLength := by
    rw [List.length_append, List.length_append] at hlen
    rw [handlesLength, List.length_append, hmagiclen]
    unfold kEncodedLength BlockHandle.kMaxEncodedLength
    omega
  have hrest : (zeros ++ (magic ++ t)).length = kEncodedLength - f.handlesLength + t.length := by
    rw [← List.append_assoc, List.length_append]
    omega
  have hleft : (zeros ++ (magic ++ t)).drop kEncodedLength = t.drop f.handlesLength := by
    rw [← List.append_assoc, ← hpad, Nat.add_comm, ← List.drop_drop, List.drop_left]
  unfold decodeFrom
  rw [if_neg (by rw [List.length_append, encode_length]; omega), if_neg (not_not.mpr hnumber), hfront,
    BlockHandle.decodeFrom_encode h1]
  simp only [BlockHandle.decodeFrom_encode h2, hleft, hrest]
  have hiff : kEncodedLength ≤ kEncodedLength - f.handlesLength + t.length ↔
      f.handlesLength ≤ t.length := by omega
  simp only [hiff]

/-- The footer is read back. -/
theorem Footer.decodeFrom_encode {f : Footer} (h1 : f.metaindex_handle.Fits)
    (h2 : f.index_handle.Fits) (t : Bytes) : ∃ rest, decodeFrom (f.encode ++ t) = .ok (f, rest) :=
  ⟨_, decodeFrom_encode_left h1 h2 t⟩

/-- The footer has its length, and `DecodeFrom` reads it back and stops behind it. -/
def Footer.ReadsBack (f : Footer) (t : Bytes) : Prop :=
  f.encode.length = kEncodedLength ∧ decodeFrom (f.encode ++ t) = .ok (f, some t)

/-- **`DecodeFrom` never stops behind the footer.**  The footer has its length and both handles are
read back, but the input that is left lacks as many bytes of `t` as the handles take; if there are
fewer, more bytes are removed than the input has. -/
theorem Footer.not_readsBack {f : Footer} (h1 : f.metaindex_handle.Fits) (h2 : f.index_handle.Fits)
    (t : Bytes) :
    ¬ f.ReadsBack t ∧ f.encode.length = kEncodedLength ∧
      decodeFrom (f.encode ++ t) =
        .ok (f, if f.handlesLength ≤ t.length then some (t.drop f.handlesLength) else none) := by
  have hdecode := decodeFrom_encode_left h1 h2 t
  refine ⟨?_, encode_length f, hdecode⟩
  rintro ⟨-, hback⟩
  have hm := f.metaindex_handle.two_le_encode_length
  have hi := f.index_handle.two_le_encode_length
  rw [hdecode] at hback
  split_ifs at hback with hle
  · have hlen : (t.drop f.handlesLength).length = t.length :=
      congrArg List.length (Option.some.inj (Prod.mk.inj (Except.ok.inj hback)).2)
    rw [List.length_drop] at hlen
    unfold handlesLength at hle hlen
    omega
  · cases (Prod.mk.inj (Except.ok.inj hback)).2

theorem Footer.not_readsBack_five :
    ¬ Footer.ReadsBack ⟨⟨0, 0⟩, ⟨0, 8⟩⟩ [1, 2, 3, 4, 5] ∧
      (Footer.encode ⟨⟨0, 0⟩, ⟨0, 8⟩⟩).length = Footer.kEncodedLength ∧
      Footer.decodeFrom (Footer.encode ⟨⟨0, 0⟩, ⟨0, 8⟩⟩ ++ [1, 2, 3, 4, 5]) =
        .ok (⟨⟨0, 0⟩, ⟨0, 8⟩⟩,
          if Footer.handlesLength ⟨⟨0, 0⟩, ⟨0, 8⟩⟩ ≤ ([1, 2, 3, 4, 5] : Bytes).length
          then some (([1, 2, 3, 4, 5] : Bytes).drop (Footer.handlesLength ⟨⟨0, 0⟩, ⟨0, 8⟩⟩)) else none) :=
  Footer.not_readsBack ⟨by decide, by decide⟩ ⟨by decide, by decide⟩ [1, 2, 3, 4, 5]

/-- The footer buffer of `Table::Open`, with nothing behind it. -/
theorem Footer.decodeFrom_removes_too_much :
    Footer.decodeFrom (Footer.encode ⟨⟨0, 0⟩, ⟨0, 8⟩⟩ ++ []) = .ok (⟨⟨0, 0⟩, ⟨0, 8⟩⟩, none) ∧
      ¬ Footer.ReadsBack ⟨⟨0, 0⟩, ⟨0, 8⟩⟩ [] := by
  have hdecode := @Footer.decodeFrom_encode_left ⟨⟨0, 0⟩, ⟨0, 8⟩⟩ ⟨by decide, by decide⟩
    ⟨by decide, by decide⟩ []
  have hm := BlockHandle.two_le_encode_length ⟨0, 0⟩
  rw [if_neg (by simp only [Footer.handlesLength, List.length_nil]; omega)] at hdecode
  refine ⟨hdecode, fun h => ?_⟩
  cases (Prod.mk.inj (Except.ok.inj (hdecode.symm.trans h.2))).2

theorem add_trailer_le {n : ℕ} (h : n < 2 ^ 32) : n + kBlockTrailerSize ≤ maxStringSize := by
  unfold kBlockTrailerSize maxStringSize
  omega

theorem lt_of_le_maxStringSize {n : ℕ} (h : n ≤ maxStringSize) : n < 2 ^ 64 := by
  unfold maxStringSize at h
  omega

/-- `ReadBlock` through the handle of a block that lies in the file. -/
theorem readBlock_withTrailer {pre contents post : Bytes} (hpre : pre.length < 2 ^ 63)
    (hsize : contents.length + kBlockTrailerSize ≤ maxStringSize) :
    readBlock (RFile.ofBytes (pre ++ (withTrailer contents ++ post))) ⟨pre.length, contents.length⟩ =
      .ok (.ok contents) := by
  have hlen : (contents.length + kBlockTrailerSize) % 2 ^ 64 = (withTrailer contents).length := by
    rw [withTrailer_length, Nat.mod_eq_of_lt (lt_of_le_maxStringSize hsize)]
  have hread : (RFile.ofBytes (pre ++ (withTrailer contents ++ post))).pread pre.length
      (withTrailer contents).length = withTrailer contents := by
    simp only [RFile.ofBytes, List.drop_left, List.take_left]
  have htype : (withTrailer contents)[contents.length]? = some kNoCompression := by
    rw [withTrailer, List.getElem?_append_right (le_refl _), Nat.sub_self]
    rfl
  have hcrc : (withTrailer contents).drop (contents.length + 1) =
      crcField (blockCrc kNoCompression contents) := by
    rw [withTrailer, blockTrailer, ← List.drop_drop, List.drop_left]
    rfl
  have hmax : ¬ (withTrailer contents).length > maxStringSize := by
    rw [withTrailer_length]
    exact hsize.not_gt
  unfold readBlock
  simp only [hlen, hread, htype, hcrc, ne_eq, not_true, if_false, if_neg hmax, if_neg hpre.not_ge]
  have hdecode := decodeFixed32_crcField (blockCrc kNoCompression contents) []
  rw [List.append_nil] at hdecode
  have htake : (withTrailer contents).take contents.length = contents := by
    rw [withTrailer, List.take_left]
  rw [hdecode, htake]
  simp

/-! ### Any handle -/

theorem encodeFixed_decodeFixed (p : Bytes) : encodeFixed p.length (decodeFixed p.length p) = p := by
  induction p with
  | nil => rfl
  | cons x p ih =>
      have hjoin : decodeFixed (p.length + 1) (x :: p) = x.toNat + decodeFixed p.length p * 2 ^ 8 := by
        rw [decodeFixed, List.headD_cons, List.tail_cons, or_shiftLeft_eq_add (UInt8.toNat_lt x)]
      have hx := UInt8.toNat_lt x
      have hlow : UInt8.ofNat (decodeFixed (p.length + 1) (x :: p)) = x := by
        apply UInt8.toNat_inj.mp
        rw [UInt8.toNat_ofNat', hjoin]
        omega
      have hhigh : decodeFixed (p.length + 1) (x :: p) >>> 8 = decodeFixed p.length p := by
        rw [Nat.shiftRight_eq_div_pow, hjoin]
        omega
      rw [List.length_cons, encodeFixed, hlow, hhigh, ih]

theorem maskCrc32c_unmaskCrc32c (m : Crc) : maskCrc32c (unmaskCrc32c m) = m := by
  have hinj : Function.Injective maskCrc32c := Function.LeftInverse.injective unmaskCrc32c_maskCrc32c
  have hfinite : Finite Crc := Finite.of_injective BitVec.toFin fun _ _ h => BitVec.toFin_inj.mp h
  obtain ⟨crc, rfl⟩ := Finite.surjective_of_injective hinj m
  rw [unmaskCrc32c_maskCrc32c]

/-- The only four bytes that are accepted for a checksum are its field. -/
theorem eq_crcField {field : Bytes} {crc : Crc} (hlen : field.length = 4)
    (h : unmaskCrc32c (BitVec.ofNat 32 (decodeFixed32 field)) = crc) : field = crcField crc := by
  have hlt : decodeFixed 4 field < 2 ^ 32 := decodeFixed_lt 4 field
  have hback := encodeFixed_decodeFixed field
  rw [hlen] at hback
  rw [crcField, ← h, maskCrc32c_unmaskCrc32c, BitVec.toNat_ofNat, decodeFixed32, Nat.mod_eq_of_lt hlt]
  exact hback.symm

/-- `ReadBlock` returns an error status, or the contents of a block that lies at the offset with its
trailer; it neither throws nor reads outside its buffer. -/
def ReadsSound (b : Bytes) (handle : BlockHandle) : Prop :=
  (∃ s, readBlock (RFile.ofBytes b) handle = .ok (.error s) ∧ s.ok = false) ∨
    ∃ contents, readBlock (RFile.ofBytes b) handle = .ok (.ok contents) ∧
      contents.length = handle.size ∧ withTrailer contents <+: b.drop handle.offset

/-- A handle whose size does not wrap: what is returned has been checked. -/
theorem readsSound_of_size_le {b : Bytes} {handle : BlockHandle}
    (h : handle.size + kBlockTrailerSize ≤ maxStringSize) : ReadsSound b handle := by
  have hlen : (handle.size + kBlockTrailerSize) % 2 ^ 64 = handle.size + kBlockTrailerSize :=
    Nat.mod_eq_of_lt (lt_of_le_maxStringSize h)
  obtain ⟨scratch, hscratch⟩ : ∃ scratch, scratch = (b.drop handle.offset).take
      (handle.size + kBlockTrailerSize) := ⟨_, rfl⟩
  have hread : (RFile.ofBytes b).pread handle.offset (handle.size + kBlockTrailerSize) = scratch :=
    hscratch.symm
  unfold ReadsSound readBlock
  simp only [hlen, hread, if_neg (not_lt.mpr h)]
  by_cases hoff : handle.offset ≥ 2 ^ 63
  · rw [if_pos hoff]
    exact Or.inl ⟨_, rfl, Status.ok_ioError _⟩
  rw [if_neg hoff]
  by_cases hfull : scratch.length = handle.size + kBlockTrailerSize
  swap
  · rw [if_pos hfull]
    exact Or.inl ⟨_, rfl, Status.ok_ioError _⟩
  rw [if_neg (not_not.mpr hfull)]
  -- the buffer: the contents, the type and the field of the checksum
  obtain ⟨contents, hcontents⟩ : ∃ contents, contents = scratch.take handle.size := ⟨_, rfl⟩
  obtain ⟨type, field, htrailer⟩ : ∃ type field, scratch.drop handle.size = type :: field := by
    apply List.exists_cons_of_length_pos
    rw [List.length_drop, hfull]
    unfold kBlockTrailerSize
    omega
  have hsplit : scratch = contents ++ type :: field := by
    rw [hcontents, ← htrailer, List.take_append_drop]
  have hsize : contents.length = handle.size := by
    rw [hcontents, List.length_take, hfull]
    omega
  have htype : scratch[handle.size]? = some type := by
    rw [hsplit, List.getElem?_append_right hsize.le, hsize, Nat.sub_self]
    rfl
  have hfield : scratch.drop (handle.size + 1) = field := by
    rw [← List.drop_drop, htrailer]
    rfl
  have hfour : field.length = 4 := by
    have hcount := congrArg List.length htrailer
    rw [List.length_drop, hfull, List.length_cons] at hcount
    unfold kBlockTrailerSize at hcount
    omega
  simp only [htype, hfield, ← hcontents]
  by_cases hzero : type = kNoCompression
  swap
  · rw [if_pos hzero]
    exact Or.inl ⟨_, rfl, Status.ok_corruption _⟩
  subst hzero
  rw [if_neg (not_not.mpr rfl)]
  by_cases hcrc : unmaskCrc32c (BitVec.ofNat 32 (decodeFixed32 field)) = blockCrc kNoCompression contents
  swap
  · rw [if_pos hcrc]
    exact Or.inl ⟨_, rfl, Status.ok_corruption _⟩
  rw [if_neg (not_not.mpr hcrc)]
  refine Or.inr ⟨contents, rfl, hsize, ?_⟩
  have hblock : withTrailer contents = scratch := by
    rw [hsplit, withTrailer, blockTrailer, eq_crcField hfour hcrc]
  rw [hblock, hscratch]
  exact List.take_prefix _ _

/-- The buffer is longer than a string can be. -/
theorem readBlock_too_long {file : RFile} {handle : BlockHandle} (hoff : handle.offset < 2 ^ 63)
    (hmax : maxStringSize < handle.size + kBlockTrailerSize) (hwrap : handle.size + kBlockTrailerSize < 2 ^ 64) :
    readBlock file handle = .error .lengthError := by
  unfold readBlock
  simp only [Nat.mod_eq_of_lt hwrap, if_neg hoff.not_ge, if_pos hmax]

/-- **When `ReadBlock` is safe.**  Exactly if the seek is refused, or the size leaves room for the
trailer in a string, or the size wraps and the file is too short for the few bytes that are then
read. -/
theorem readsSound_iff (b : Bytes) {handle : BlockHandle} (hf : handle.Fits) :
    ReadsSound b handle ↔
      2 ^ 63 ≤ handle.offset ∨ handle.size + kBlockTrailerSize ≤ maxStringSize ∨
        ∃ n, 0 < n ∧ handle.size + kBlockTrailerSize = 2 ^ 64 + n ∧ b.length < handle.offset + n := by
  have hfault : ∀ f, readBlock (RFile.ofBytes b) handle = .error f → ¬ ReadsSound b handle := by
    rintro f hread (⟨s, h, -⟩ | ⟨contents, h, -⟩)
    · rw [hread] at h
      cases h
    · rw [hread] at h
      cases h
  by_cases hoff : handle.offset ≥ 2 ^ 63
  · refine iff_of_true (Or.inl ⟨Status.ioError (ascii "while seeking to block"), ?_, rfl⟩) (Or.inl hoff)
    unfold readBlock
    rw [if_pos hoff]
  by_cases hmax : handle.size + kBlockTrailerSize ≤ maxStringSize
  · exact iff_of_true (readsSound_of_size_le hmax) (Or.inr (Or.inl hmax))
  by_cases hwrap : handle.size + kBlockTrailerSize < 2 ^ 64
  · refine iff_of_false (hfault .lengthError (readBlock_too_long (not_le.mp hoff) (not_le.mp hmax) hwrap)) ?_
    rintro (h | h | ⟨n, -, h, -⟩)
    · exact hoff h
    · exact hmax h
    · omega
  · -- the buffer has fewer bytes than the trailer
    obtain ⟨n, hn⟩ := Nat.exists_eq_add_of_le (not_lt.mp hwrap)
    have hsize := hf.2
    have hsmall : n < kBlockTrailerSize := by omega
    have hlen : (handle.size + kBlockTrailerSize) % 2 ^ 64 = n := by
      rw [hn, Nat.add_mod_left]
      exact Nat.mod_eq_of_lt (hsmall.trans (by decide))
    have hstring : ¬ n > maxStringSize := not_lt.mpr (hsmall.le.trans (by decide))
    have hread : ((RFile.ofBytes b).pread handle.offset n).length = min n (b.length - handle.offset) := by
      simp [RFile.ofBytes]
    by_cases hshort : 0 < n ∧ b.length < handle.offset + n
    · refine iff_of_true (Or.inl ⟨Status.ioError (ascii "while reading block"), ?_, rfl⟩)
        (Or.inr (Or.inr ⟨n, hshort.1, hn, hshort.2⟩))
      unfold readBlock
      simp only [hlen, if_neg hoff, if_neg hstring]
      rw [if_pos (by rw [hread]; omega)]
    · refine iff_of_false (hfault .outOfBounds ?_) ?_
      · have hfull : ((RFile.ofBytes b).pread handle.offset n).length = n := by omega
        have hnone : ((RFile.ofBytes b).pread handle.offset n)[handle.size]? = none := by
          apply List.getElem?_eq_none
          unfold kBlockTrailerSize at *
          omega
        unfold readBlock
        simp only [hlen, if_neg hoff, if_neg hstring, hfull, hnone]
        rw [if_neg (not_not.mpr rfl)]
      · rintro (h | h | ⟨m, hm, h, hlt⟩)
        · exact hoff h
        · exact hmax h
        · exact hshort ⟨by omega, by omega⟩

theorem readsSound_iff_wrapped :
    ReadsSound [] ⟨0, 2 ^ 64 - 5⟩ ↔
      2 ^ 63 ≤ 0 ∨ 2 ^ 64 - 5 + kBlockTrailerSize ≤ maxStringSize ∨
        ∃ n, 0 < n ∧ 2 ^ 64 - 5 + kBlockTrailerSize = 2 ^ 64 + n ∧ ([] : Bytes).length < 0 + n :=
  readsSound_iff [] ⟨by decide, by decide⟩

/-- A size that wraps to an empty buffer. -/
theorem readBlock_past_scratch :
    readBlock (RFile.ofBytes []) ⟨0, 2 ^ 64 - 5⟩ = .error .outOfBounds ∧
      ¬ ReadsSound [] ⟨0, 2 ^ 64 - 5⟩ := by
  have hread : readBlock (RFile.ofBytes []) ⟨0, 2 ^ 64 - 5⟩ = .error .outOfBounds := by rfl
  refine ⟨hread, ?_⟩
  rintro (⟨s, h, -⟩ | ⟨contents, h, -⟩)
  · rw [hread] at h
    cases h
  · rw [hread] at h
    cases h

/-! ### Writing -/

/-- **`WriteBlock` puts the block behind the file** and reports where it lies. -/
theorem writeBlock_wp {room : ℕ → Bool} {Q : Status × BlockHandle → FileSystem → Prop}
    {C : FileSystem → Prop} {fs : FileSystem} {file contents : Bytes} (hC : C fs)
    (htorn : ∀ x, x <+: withTrailer contents → C (fs.append file x))
    (hQ : Q (Status.OK, ⟨(fs.get file).length, contents.length⟩)
      (fs.append file (withTrailer contents))) :
    (writeBlock file contents).wp (disk room) Q C fs := by
  refine op_wp hC rfl (fun _ h => h) ?_
  refine fwrite_wp hC (fun x hx => htorn x (hx.trans (List.prefix_append _ _))) ?_
  rw [if_neg (by simp)]
  refine fwrite_wp (htorn _ (List.prefix_append _ _)) (fun x hx => ?_) ?_
  · rw [FileSystem.append_append]
    exact htorn _ ((List.prefix_append_right_inj _).mpr hx)
  · rw [blockTrailer_length, if_neg (by simp), FileSystem.append_append]
    exact Prog.wp_ret (htorn _ (List.prefix_refl _)) hQ

end MiniLevelDB
