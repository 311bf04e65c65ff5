import MiniLevelDB.Bursts
import MiniLevelDB.TableSearch

/-! # Damaged tables

A table file whose blocks were damaged after they had been written, each within four bytes of its contents or
anywhere in its trailer.  A damaged index block is refused when the table is opened; a damaged data block costs
`Get` exactly the keys whose first entry is in it, and no other answer changes (`get_damaged`). -/

namespace MiniLevelDB

open Effect

/-! ### Damaged blocks -/

/-- What damage makes of a block with its trailer. -/
inductive Damages (contents : Bytes) : Bytes → Prop
  | contents {pre xs ys post : Bytes} : contents = pre ++ (xs ++ post) → xs.length = ys.length →
      xs.length ≤ 4 → xs ≠ ys → Damages contents (pre ++ (ys ++ post) ++ blockTrailer contents)
  | trailer {trailer : Bytes} : trailer.length = kBlockTrailerSize → trailer ≠ blockTrailer contents →
      Damages contents (contents ++ trailer)

section

variable {contents stored : Bytes}

theorem Damages.length_eq (h : Damages contents stored) : stored.length = contents.length + kBlockTrailerSize := by
  cases h with
  | contents hcontents hlen _ _ =>
      rw [hcontents]
      simp only [List.length_append, blockTrailer_length, hlen]
  | trailer hlen _ => rw [List.length_append, hlen]

theorem blockTrailer_inj {c c' : Bytes} (h : blockTrailer c = blockTrailer c') :
    blockCrc kNoCompression c = blockCrc kNoCompression c' := by
  have hfield : crcField (blockCrc kNoCompression c) = crcField (blockCrc kNoCompression c') :=
    (List.cons.inj h).2
  have hdecode := decodeFixed32_crcField (blockCrc kNoCompression c) []
  rw [hfield, decodeFixed32_crcField] at hdecode
  exact (maskCrc32c_injective (BitVec.eq_of_toNat_eq hdecode)).symm

/-- No contents have a damaged block for theirs. -/
theorem Damages.ne_withTrailer (h : Damages contents stored) (c : Bytes) : stored ≠ withTrailer c := by
  intro heq
  rw [withTrailer] at heq
  cases h with
  | @contents pre xs ys post hcontents hlen hfour hne =>
      obtain ⟨rfl, htrailer⟩ := List.append_inj' heq (by rw [blockTrailer_length, blockTrailer_length])
      have hcrc := blockTrailer_inj htrailer
      rw [hcontents] at hcrc
      exact extend_burst _ hlen hfour hne hcrc
  | trailer hlen hne =>
      obtain ⟨rfl, htrailer⟩ := List.append_inj' heq (by rw [hlen, blockTrailer_length])
      exact hne htrailer

/-- A damaged block is not read. -/
theorem Damages.readBlock_error {pre post : Bytes} (h : Damages contents stored)
    (hsize : contents.length < 2 ^ 32) :
    ∃ s, readBlock (RFile.ofBytes (pre ++ (stored ++ post))) ⟨pre.length, contents.length⟩ = .ok (.error s) ∧
      s.ok = false := by
  rcases @readsSound_of_size_le (pre ++ (stored ++ post)) ⟨pre.length, contents.length⟩
      (add_trailer_le hsize) with
    herror | ⟨c, -, hlen, hprefix⟩
  · exact herror
  · -- what was read would be a block with its trailer
    rw [List.drop_left] at hprefix
    have htake := List.prefix_iff_eq_take.mp hprefix
    rw [withTrailer_length, hlen, ← h.length_eq, List.take_left] at htake
    exact absurd htake.symm (h.ne_withTrailer c)

end

/-! ### Damaged tables -/

/-- The data blocks with their trailers, damaged where they are not `intact`. -/
inductive DamagedBlocks : (ℕ → Bool) → List (List Entry) → Bytes → Prop
  | nil {intact : ℕ → Bool} : DamagedBlocks intact [] []
  | cons {intact : ℕ → Bool} {b : List Entry} {bs : List (List Entry)} {stored data : Bytes} :
      (if intact 0 then stored = withTrailer (blockContents b) else Damages (blockContents b) stored) →
      DamagedBlocks (fun i => intact (i + 1)) bs data → DamagedBlocks intact (b :: bs) (stored ++ data)

section

variable {es : List Entry} {intact : ℕ → Bool} {bs : List (List Entry)} {b : List Entry} {data stored : Bytes}

theorem length_of_stored (h : if intact 0 then stored = withTrailer (blockContents b)
    else Damages (blockContents b) stored) : stored.length = (withTrailer (blockContents b)).length := by
  split at h
  · rw [h]
  · rw [h.length_eq, withTrailer_length]

theorem DamagedBlocks.length_eq (h : DamagedBlocks intact bs data) : data.length = (dataBytes bs).length := by
  induction h with
  | nil => rfl
  | cons hstored _ ih =>
      rw [List.length_append, ih, length_of_stored hstored, dataBytes, dataBytes, List.flatMap_cons,
        List.length_append]

/-- Where a data block lies. -/
theorem DamagedBlocks.block (h : DamagedBlocks intact bs data) {i : ℕ} (hb : bs[i]? = some b) :
    ∃ pre stored post, data = pre ++ (stored ++ post) ∧ pre.length = (dataBytes (bs.take i)).length ∧
      if intact i then stored = withTrailer (blockContents b) else Damages (blockContents b) stored := by
  induction h generalizing i with
  | nil => cases hb
  | @cons intact c bs stored data hstored _ ih =>
      cases i with
      | zero =>
          obtain rfl : c = b := Option.some.inj hb
          exact ⟨[], stored, data, rfl, rfl, hstored⟩
      | succ i =>
          obtain ⟨pre, stored', post, rfl, hpre, hstored'⟩ := ih hb
          refine ⟨stored ++ pre, stored', post, by rw [List.append_assoc], ?_, hstored'⟩
          rw [List.length_append, hpre, length_of_stored hstored, List.take_succ_cons, dataBytes, dataBytes,
            List.flatMap_cons, List.length_append]

/-- Opening such a file comes down to its index block. -/
theorem load_of_footer {index : Bytes} (hfit : BlocksFit es) (hdata : data.length = (dataBytes (dataBlocks es)).length)
    (hindex : index.length = (indexContents (dataBlocks es)).length + kBlockTrailerSize) :
    Table.load (RFile.ofBytes (data ++ (index ++ (footerOf (dataBlocks es)).encode))) =
      match readBlock (RFile.ofBytes (data ++ (index ++ (footerOf (dataBlocks es)).encode)))
        ⟨data.length, (indexContents (dataBlocks es)).length⟩ with
      | .error f => .error f
      | .ok (.error s) => .ok (.error s)
      | .ok (.ok contents) => match Block.new contents with
        | .error f => .error f
        | .ok block =>
            .ok (.ok ⟨RFile.ofBytes (data ++ (index ++ (footerOf (dataBlocks es)).encode)), block⟩) := by
  obtain ⟨file, hfile⟩ : ∃ file, file = data ++ (index ++ (footerOf (dataBlocks es)).encode) := ⟨_, rfl⟩
  have hlen : file.length = data.length + index.length + Footer.kEncodedLength := by
    rw [hfile, ← List.append_assoc, List.length_append, List.length_append, Footer.encode_length]
  have hdrop : file.drop (file.length - Footer.kEncodedLength) = (footerOf (dataBlocks es)).encode ++ [] := by
    rw [hlen, Nat.add_sub_cancel, hfile, ← List.append_assoc, List.append_nil]
    exact List.drop_left' List.length_append
  have hlt := hfit.dataBytes_length_lt
  have hsmall := hfit.2
  have hread : (RFile.ofBytes file).pread ((RFile.ofBytes file).size - Footer.kEncodedLength)
      Footer.kEncodedLength = (footerOf (dataBlocks es)).encode ++ [] := by
    rw [← hdrop]
    exact List.take_of_length_le (by rw [List.length_drop]; simp only [RFile.ofBytes]; omega)
  obtain ⟨rest, hfooter⟩ := @Footer.decodeFrom_encode (footerOf (dataBlocks es))
    ⟨(by decide : 0 < 2 ^ 64), (by decide : 0 < 2 ^ 64)⟩
    ⟨(by omega : (dataBytes (dataBlocks es)).length < 2 ^ 64),
      (by omega : (indexContents (dataBlocks es)).length < 2 ^ 64)⟩ []
  have hsize : (RFile.ofBytes file).size = file.length := rfl
  rw [← hfile, hdata]
  unfold Table.load
  simp only [hread, hfooter]
  rw [if_neg (by rw [hsize]; omega), if_neg (by simp)]
  rfl

/-- The damaged blocks of an open table are those it cannot read. -/
theorem DamagedBlocks.serves {t : Table} {post : Bytes} (h : DamagedBlocks intact (dataBlocks es) data)
    (hfit : BlocksFit es) (hord : Ordered es) (hfile : t.file = RFile.ofBytes (data ++ post))
    (hindex : t.index_block = blockOf (indexEntries 0 (dataBlocks es))) : Serves t (dataBlocks es) intact := by
  refine ⟨fun b hb => ne_nil_of_mem_cutBlocks hb, (dataBlocks_flatten es).symm ▸ hord, hfit.1,
    indexEntries 0 (dataBlocks es), hindex, hfit.2, indexEntries_keys 0 _, ?_⟩
  intro i e b he hb
  obtain ⟨hoff, hdecode⟩ := hfit.decode_index he hb
  have hsize := hfit.1 b (List.mem_of_getElem? hb)
  obtain ⟨pre, stored, rest, rfl, hpre, hstored⟩ := h.block hb
  rw [Table.dataBlock, hdecode, hfile, ← hpre, List.append_assoc, List.append_assoc]
  rw [← hpre] at hoff
  split at hstored
  · rw [hstored]
    simp only [@readBlock_withTrailer pre _ _ (by omega) (add_trailer_le hsize)]
    rw [if_pos ‹_›]
  · obtain ⟨s, hs, -⟩ := @Damages.readBlock_error _ _ pre (rest ++ post) hstored hsize
    simp only [hs]
    rw [if_neg ‹_›]

end

/-- **What damage does to a table.**  Let data blocks of a table file be damaged, each within four bytes of its
contents or anywhere in its trailer.  Where the index block is damaged too, the table is not opened.  Where it is
not, the table is opened, and `Get` answers that there is no entry for the keys whose first entry is in a damaged
block, and as before for all others. -/
theorem get_damaged {es : List Entry} {intact : ℕ → Bool} {data : Bytes} (hfit : BlocksFit es) (hord : Ordered es)
    (hdata : DamagedBlocks intact (dataBlocks es) data) :
    (∀ index, Damages (indexContents (dataBlocks es)) index →
      ∃ s, Table.load (RFile.ofBytes (data ++ (index ++ (footerOf (dataBlocks es)).encode))) = .ok (.error s) ∧
        s.ok = false) ∧
    ∃ t, Table.load (RFile.ofBytes (data ++ (withTrailer (indexContents (dataBlocks es)) ++
        (footerOf (dataBlocks es)).encode))) = .ok (.ok t) ∧
      ∀ k, t.get k = if intact (firstBlock k (dataBlocks es)) then (tableOf es).get k else pure .kNotFound := by
  have hlt := hfit.dataBytes_length_lt
  constructor
  · intro index hindex
    obtain ⟨s, hread, hs⟩ := @Damages.readBlock_error _ _ data (footerOf (dataBlocks es)).encode hindex hfit.2
    refine ⟨s, ?_, hs⟩
    rw [load_of_footer hfit hdata.length_eq hindex.length_eq, hread]
  · obtain ⟨post, hpost⟩ : ∃ post, post = withTrailer (indexContents (dataBlocks es)) ++
        (footerOf (dataBlocks es)).encode := ⟨_, rfl⟩
    refine ⟨⟨RFile.ofBytes (data ++ post), blockOf (indexEntries 0 (dataBlocks es))⟩, ?_, fun k => ?_⟩
    · rw [load_of_footer hfit hdata.length_eq (withTrailer_length _),
        readBlock_withTrailer (by rw [hdata.length_eq]; omega) (add_trailer_le hfit.2), hpost]
      simp only [indexContents, new_blockContents hfit.2]
    · have hserves : Serves ⟨RFile.ofBytes (data ++ post), blockOf (indexEntries 0 (dataBlocks es))⟩
          (dataBlocks es) intact := hdata.serves hfit hord rfl rfl
      rw [hserves.get_eq, (serves_tableOf hfit hord).get_eq]
      by_cases hintact : intact (firstBlock k (dataBlocks es)) = true
      · simp [hintact]
      · simp [hintact]

theorem get_damaged_prefix :
    ∃ (data : Bytes) (t : Table),
      Table.load (RFile.ofBytes (data ++ (withTrailer
          (indexContents (dataBlocks (MemTable.empty.addAll prefixCalls).table)) ++
        (footerOf (dataBlocks (MemTable.empty.addAll prefixCalls).table)).encode))) = .ok (.ok t) ∧
      ∀ k, t.get k = pure .kNotFound := by
  obtain ⟨es, hes⟩ : ∃ es, es = (MemTable.empty.addAll prefixCalls).table := ⟨_, rfl⟩
  have hblocks : dataBlocks es = [es] := by rw [hes, prefixCalls_blocks]
  have hfit : BlocksFit es := by
    rw [hes]
    exact blocksFit_of_footprint (by decide)
  have hdamages : Damages (blockContents es) (blockContents es ++ [1, 0, 0, 0, 0]) :=
    .trailer rfl (by simp [blockTrailer, kNoCompression])
  have hdata : DamagedBlocks (fun _ => false) (dataBlocks es) (blockContents es ++ [1, 0, 0, 0, 0] ++ []) := by
    rw [hblocks]
    exact .cons hdamages .nil
  obtain ⟨-, t, hload, hget⟩ := get_damaged hfit (hes ▸ MemTable.ordered _) hdata
  rw [← hes]
  exact ⟨_, t, hload, hget⟩

end MiniLevelDB
