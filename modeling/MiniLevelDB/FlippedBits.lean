import MiniLevelDB.Bursts
import MiniLevelDB.Lib.CrcDistance
import MiniLevelDB.RandomPeriod

/-! # Flipped bits

The polynomial of the checksum has an odd number of coefficients, and the register of one bit does not come back
to itself for `2 ^ 31 - 1` steps (`steps_bit_ne`).  So `ReadBlock` and the log reader detect each change of up to
three bits of the contents they check, and each change of an odd number of them (`flips_detected`). -/

namespace MiniLevelDB

open ReflectedCrc Effect LogReader

/-- The number of bits in which two byte strings differ. -/
def flips (a b : Bytes) : ℕ := (diff (bitsOf a) (bitsOf b)).count true

/-- An odd number of bits was flipped, or two of less than `2 ^ 31`. -/
structure Flipped (a b : Bytes) : Prop where
  length_eq : b.length = a.length
  flips : Odd (flips a b) ∨ flips a b = 2 ∧ 8 * a.length < 2 ^ 31

/-- The bytes of a file with others in the place of those at an offset. -/
def overwrite (b : Bytes) (off : ℕ) (new : Bytes) : Bytes := b.take off ++ (new ++ b.drop (off + new.length))

/-- Up to three flipped bits. -/
theorem Flipped.of_le_three {a b : Bytes} (hlen : b.length = a.length) (hne : 0 < MiniLevelDB.flips a b)
    (hle : MiniLevelDB.flips a b ≤ 3) (hsize : 8 * a.length < 2 ^ 31) : Flipped a b := by
  refine ⟨hlen, ?_⟩
  obtain hone | htwo | hthree :
      MiniLevelDB.flips a b = 1 ∨ MiniLevelDB.flips a b = 2 ∨ MiniLevelDB.flips a b = 3 := by omega
  · exact .inl (hone ▸ odd_one)
  · exact .inr ⟨htwo, hsize⟩
  · exact .inl (hthree ▸ by decide)

theorem overwrite_eq {pre old new post : Bytes} (hlen : new.length = old.length) :
    overwrite (pre ++ (old ++ post)) pre.length new = pre ++ (new ++ post) := by
  rw [overwrite, List.take_left, hlen, ← List.drop_drop, List.drop_left, List.drop_left]

/-! ### The polynomial -/

theorem parity_kPoly : parity kPoly = true := by decide

/-- The register of one bit, when it has moved all the way down. -/
theorem steps_one : steps kPoly 31 one = bit true := by decide +kernel

theorem steps_period : steps kPoly 2147483647 one = one := by
  have hpower : power kPoly 31 = bitStep kPoly one := by decide +kernel
  have hdouble : steps kPoly (2147483647 + 1) one = bitStep kPoly one := by
    rw [← hpower, ← steps_two_pow]
    rfl
  rw [steps_succ] at hdouble
  exact steps_injective kPoly (by decide) 1 hdouble

/-- **The register of one bit** does not come back to itself earlier. -/
theorem steps_bit_ne {n : ℕ} (hpos : 0 < n) (hlt : n < 2147483647) : steps kPoly n (bit true) ≠ bit true := by
  rw [← steps_one, ← steps_add, Nat.add_comm, steps_add]
  intro hback
  have hone := (steps_eq_one_iff kPoly Random.prime_modulus steps_period (by decide) n).mp
    (steps_injective kPoly (by decide) 31 hback)
  exact absurd (Nat.le_of_dvd hpos hone) hlt.not_ge

theorem extend_flipped (crc : Crc) {a b : Bytes} (h : Flipped a b) : extend crc b ≠ extend crc a := by
  intro heq
  have hregister : crcLoop (~~~ crc) a = crcLoop (~~~ crc) b := (BitVec.not_inj.mp heq).symm
  simp only [crcLoop_eq] at hregister
  refine feed_flips kPoly (by decide) parity_kPoly (by decide) (fun n => steps_bit_ne) (~~~ crc) ?_ ?_ hregister
  · rw [bitsOf_length, bitsOf_length, h.length_eq]
  · refine h.flips.imp_right fun ⟨htwo, hsize⟩ => ⟨htwo, ?_⟩
    rw [bitsOf_length]
    omega

/-! ### Log records -/

/-- The reader gives up the block at a record with the header of another payload. -/
theorem next_of_extend_ne {b t payload : Bytes} {r : PhysicalRecord} (ht : r.type ≠ .kZeroType)
    (hfit : r.start % kBlockSize + kHeaderSize + r.payload.length ≤ kBlockSize)
    (hlen : payload.length = r.payload.length)
    (hdrop : b.drop r.start = recordHeader r.type r.payload ++ (payload ++ t))
    (hne : extend (value [r.type.toByte]) payload ≠ extend (value [r.type.toByte]) r.payload) :
    next b r.start = some (some .bad, blockEnd r.start) := by
  have hh := kHeaderSize_eq
  have hsize := kBlockSize_eq
  have hend := blockEnd_eq r.start
  have hmod := Nat.mod_le r.start kBlockSize
  have hcount : b.length - r.start = kHeaderSize + (payload.length + t.length) := by
    rw [← List.length_drop, hdrop]
    simp
  have hhead : headerLen (b.drop r.start) = r.payload.length := by
    rw [hdrop, headerLen_recordHeader (by omega)]
  have hcheck : checkRecord (b.drop r.start) r.payload.length = none := by
    rw [hdrop, ← hlen, checkRecord_of_ne ht _ hne]
  unfold next
  simp only [hhead, hcheck]
  rw [if_neg (by omega), if_neg (by omega)]

/-! ### Main result -/

/-- **Flipped bits are detected.**  `ReadBlock` returns the checksum error for a block that `WriteBlock` has
written and that a string holds with its trailer, whatever was written behind it, with an odd number or two of
the bits of its contents flipped.  `ReadPhysicalRecord` returns `kBad` for a physical record of a log with such
flips in its payload. -/
theorem flips_detected :
    (∀ (file : FILE) (contents : Bytes) (fs fs' : FileSystem) (handle : BlockHandle),
      (writeBlock file contents).run (disk offsetLimit) fs = .done (Status.OK, handle) fs' →
      contents.length + kBlockTrailerSize ≤ maxStringSize → ∀ post altered, Flipped contents altered →
        readBlock (RFile.ofBytes (overwrite (fs'.get file ++ post) handle.offset altered)) handle =
          .ok (.error (Status.corruption "block checksum mismatch"))) ∧
    ∀ (file : FILE) (rs : List Bytes) (fs : FileSystem),
      ∃ w fs', ((LogWriter.new file (fs.get file).length).addRecords rs).run (disk unbounded) fs =
          .done (Status.OK, w) fs' ∧
        fs'.get file = fs.get file ++
          render (fs.get file).length (physicalRecords (fs.get file).length rs) ∧
        ∀ r ∈ physicalRecords (fs.get file).length rs, ∀ post altered, Flipped r.payload altered →
          ∀ reader, At (overwrite (fs'.get file ++ post) (r.start + kHeaderSize) altered) reader r.start →
            reader.readPhysicalRecord.1 = .kBad := by
  constructor
  · intro file contents fs fs' handle hrun hstring post altered h
    obtain ⟨hr, rfl, hroom⟩ := writeBlock_done hrun
    obtain rfl : handle = ⟨(fs.get file).length, contents.length⟩ := (Prod.mk.inj hr).2
    have hroom : (fs.get file).length + (withTrailer contents).length < 2 ^ 63 := by
      simpa [offsetLimit] using hroom
    rw [withTrailer_length] at hroom
    have hfile : (fs.append file (withTrailer contents)).get file ++ post =
        fs.get file ++ (contents ++ (blockTrailer contents ++ post)) := by
      rw [FileSystem.get_append, withTrailer]
      simp only [List.append_assoc]
    rw [hfile]
    dsimp only
    rw [overwrite_eq h.length_eq]
    refine @readBlock_of_pread _ _ altered _ (by simp only; omega) hstring h.length_eq ?_
      (extend_flipped (value [kNoCompression]) h).symm
    simp only [RFile.ofBytes, List.drop_left]
    rw [← List.append_assoc, List.take_left' (by simp [h.length_eq])]
    rfl
  · intro file rs fs
    obtain ⟨⟨s, w⟩, fs', hrun, rfl, hget⟩ := run_unbounded_of_wp
      (Q := fun a fs' => a.1 = Status.OK ∧ fs'.get file = fs.get file ++
        render (fs.get file).length (physicalRecords (fs.get file).length rs))
      (@LogWriter.addRecords_wp unbounded (LogWriter.new file (fs.get file).length) rs fs _
        (LogWriter.inStep_new file _) (fun w' fs' _ _ hget => ⟨rfl, hget⟩))
    refine ⟨w, fs', hrun, hget, fun r hr post altered h reader hreader => ?_⟩
    have hplaced := placed_physicalRecords (fs.get file).length rs
    obtain ⟨ht, hfit⟩ := hplaced.fits r hr
    obtain ⟨t, hdrop⟩ := hplaced.drop_start rfl r hr
    rw [← hget] at hdrop
    -- the file around the payload
    have hle : r.start ≤ (fs'.get file).length := by
      by_contra hlt
      rw [List.drop_eq_nil_of_le (not_le.mp hlt).le] at hdrop
      have hlen := congrArg List.length hdrop
      simp only [List.length_nil, List.length_append, recordHeader_length, kHeaderSize_eq] at hlen
      omega
    have hstart : ((fs'.get file).take r.start).length = r.start := List.length_take_of_le hle
    have hfile : fs'.get file ++ post = ((fs'.get file).take r.start ++ recordHeader r.type r.payload) ++
        (r.payload ++ (t ++ post)) := by
      conv_lhs => rw [← List.take_append_drop r.start (fs'.get file), hdrop]
      simp only [List.append_assoc]
    have hoff : r.start + kHeaderSize =
        ((fs'.get file).take r.start ++ recordHeader r.type r.payload).length := by
      rw [List.length_append, hstart, recordHeader_length]
    rw [hfile, hoff, overwrite_eq h.length_eq, List.append_assoc] at hreader
    have hanswers := hreader.answers
    rw [next_of_extend_ne ht hfit h.length_eq (by rw [List.drop_left' hstart])
      (extend_flipped _ h)] at hanswers
    exact hanswers.1

/-- A bit of a block, and one of a record in a log. -/
theorem flips_detected_bit :
    (∃ handle fs', (writeBlock (ascii "f") [1, 2, 3]).run (disk offsetLimit) ∅ = .done (Status.OK, handle) fs' ∧
      readBlock (RFile.ofBytes (overwrite (FileSystem.get fs' (ascii "f") ++ [4]) handle.offset [1, 2, 2])) handle =
        .ok (.error (Status.corruption "block checksum mismatch"))) ∧
    ∃ (w : LogWriter) (fs' : FileSystem) (reader : LogReader),
      ((LogWriter.new (ascii "f") 0).addRecords [[1, 2, 3]]).run (disk unbounded) ∅ = .done (Status.OK, w) fs' ∧
      LogReader.At (overwrite (FileSystem.get fs' (ascii "f") ++ [4]) kHeaderSize [1, 2, 2]) reader 0 ∧
        reader.readPhysicalRecord.1 = .kBad := by
  obtain ⟨hblock, hlog⟩ := flips_detected
  have hflipped : Flipped [1, 2, 3] [1, 2, 2] := ⟨rfl, Or.inl (by decide)⟩
  constructor
  · exact ⟨_, _, rfl, hblock (ascii "f") [1, 2, 3] ∅ _ _ rfl (by norm_num [kBlockTrailerSize, maxStringSize])
      [4] [1, 2, 2] hflipped⟩
  · obtain ⟨w, fs', hrun, hget, hread⟩ := hlog (ascii "f") [[1, 2, 3]] ∅
    have hempty : FileSystem.get ∅ (ascii "f") = [] := rfl
    rw [hempty] at hrun hget hread
    have hrecords : physicalRecords 0 [[1, 2, 3]] = [⟨0, .kFullType, [1, 2, 3]⟩] := by decide +kernel
    obtain ⟨reader, hat⟩ := @LogReader.exists_at (overwrite (fs'.get (ascii "f") ++ [4]) kHeaderSize [1, 2, 2])
      (by rw [hget]; decide +kernel)
    refine ⟨w, fs', reader, hrun, hat, hread ⟨0, .kFullType, [1, 2, 3]⟩ ?_ [4] [1, 2, 2] hflipped reader ?_⟩
    · exact hrecords ▸ List.mem_singleton.mpr rfl
    · exact hat

end MiniLevelDB
