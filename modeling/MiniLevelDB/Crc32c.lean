import MiniLevelDB.Coding

/-! # CRC-32C checksums

The four tables of `util/crc32c.cc`, the four-bytes-a-step `Extend`, and the mask a checksum is
stored under. -/

namespace MiniLevelDB

abbrev Crc := BitVec 32

def kPoly : Crc := 0x82f63b78#32

/-- One of the eight steps for a table entry of the base table. -/
def crcBitStep (c : Crc) : Crc := if c &&& 1#32 ≠ 0#32 then (c >>> 1) ^^^ kPoly else c >>> 1

/-- `Tables::t`: the base table, and each further one derived from the one before it. -/
def Tables.t : ℕ → Crc → Crc
  | 0, i => (List.range 8).foldl (fun c _ => crcBitStep c) i
  | lvl + 1, i =>
      let c := Tables.t lvl i
      (c >>> 8) ^^^ Tables.t 0 (c &&& 0xff#32)

/-- A byte widened to `uint32_t`. -/
def crcByte (b : UInt8) : Crc := b.toBitVec.setWidth 32

/-- The loops of `Extend`: whole words first, then the tail byte by byte. -/
def crcLoop : Crc → Bytes → Crc
  | c, b₀ :: b₁ :: b₂ :: b₃ :: rest =>
      let word := crcByte b₀ ||| (crcByte b₁ <<< 8) ||| (crcByte b₂ <<< 16) ||| (crcByte b₃ <<< 24)
      let c := c ^^^ word
      crcLoop (Tables.t 3 (c &&& 0xff#32) ^^^ Tables.t 2 ((c >>> 8) &&& 0xff#32) ^^^
        Tables.t 1 ((c >>> 16) &&& 0xff#32) ^^^ Tables.t 0 (c >>> 24)) rest
  | c, b :: rest => crcLoop (Tables.t 0 ((c ^^^ crcByte b) &&& 0xff#32) ^^^ (c >>> 8)) rest
  | c, [] => c

/-- `Extend`: the checksum of the bytes behind `crc` followed by `data`. -/
def extend (crc : Crc) (data : Bytes) : Crc := ~~~ crcLoop (~~~ crc) data

/-- `Value`. -/
def value (data : Bytes) : Crc := extend 0#32 data

def kMaskDelta : Crc := 0xa282ead8#32

def maskCrc32c (crc : Crc) : Crc := ((crc >>> 15) ||| (crc <<< 17)) + kMaskDelta

def unmaskCrc32c (masked : Crc) : Crc :=
  let rot := masked - kMaskDelta
  (rot >>> 17) ||| (rot <<< 15)

@[simp] theorem unmaskCrc32c_maskCrc32c (crc : Crc) : unmaskCrc32c (maskCrc32c crc) = crc := by
  unfold unmaskCrc32c maskCrc32c
  simp only [BitVec.add_sub_cancel]
  apply BitVec.eq_of_getLsbD_eq
  intro i hi
  simp only [BitVec.getLsbD_or, BitVec.getLsbD_ushiftRight, BitVec.getLsbD_shiftLeft]
  by_cases h : i < 15
  · have h1 : 15 + (17 + i) ≥ 32 := by omega
    have h2 : 17 + i < 32 := by omega
    simp [h, h2, BitVec.getLsbD_of_ge crc _ h1]
  · have h1 : 15 + (i - 15) = i := by omega
    have h2 : ¬ 17 + i < 32 := by omega
    have h3 : i - 15 < 17 := by omega
    have h4 : 15 + (17 + i) ≥ 32 := by omega
    simp [h, h1, h2, h3, hi, BitVec.getLsbD_of_ge crc _ h4]

/-- The checksum as it is stored: masked, four bytes. -/
def crcField (crc : Crc) : Bytes := encodeFixed32 (maskCrc32c crc).toNat

@[simp] theorem crcField_length (crc : Crc) : (crcField crc).length = 4 := encodeFixed32_length _

theorem decodeFixed32_crcField (crc : Crc) (t : Bytes) :
    decodeFixed32 (crcField crc ++ t) = (maskCrc32c crc).toNat :=
  decodeFixed32_encodeFixed32 (maskCrc32c crc).isLt t

end MiniLevelDB
