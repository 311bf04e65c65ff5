import MiniLevelDB.Table

/-! # Reading a table from end to end

A written table is opened, its index block is walked, and each data block is read through its handle
and walked (`Table.walk`).  `table_round_trip` says that this gives back what was added. -/

namespace MiniLevelDB

open Effect Posix

/-- What is read for one index entry. -/
structure BlockPart where
  index_key : Bytes
  handle : BlockHandle
  entries : List Entry

/-- Read and walk the data blocks behind index entries. -/
def walkBlocks (file : RFile) : List Entry → Exec (Except Status (List BlockPart))
  | [] => return .ok []
  | e :: es =>
      match BlockHandle.decodeFrom e.2 with
      | .error s => return .error s
      | .ok (handle, _) => do
          match ← Exec.ofExcept (readBlock file handle) with
          | .error s => return .error s
          | .ok contents =>
              let block ← Exec.ofExcept (Block.new contents)
              let entries ← block.walk
              match ← walkBlocks file es with
              | .error s => return .error s
              | .ok parts => return .ok (⟨e.1, handle, entries⟩ :: parts)

/-- Walk over the index block, and from each of its entries over the data block. -/
def Table.walk (t : Table) : Exec (Except Status (List BlockPart)) := do
  let index ← t.index_block.walk
  walkBlocks t.file index

/-- The blocks behind the handles, with their trailers, lie one behind the other from `o` to
`stop`. -/
def Tiled (o : ℕ) : List BlockHandle → ℕ → Prop
  | [], stop => o = stop
  | h :: hs, stop => h.offset = o ∧ Tiled (o + (h.size + kBlockTrailerSize)) hs stop

/-- What is read of data blocks that start at offset `o`. -/
def partsOf : ℕ → List (List Entry) → List BlockPart
  | _, [] => []
  | o, b :: bs =>
      ⟨lastKey [] b, ⟨o, (blockContents b).length⟩, b⟩ ::
        partsOf (o + ((blockContents b).length + kBlockTrailerSize)) bs

theorem partsOf_entries (o : ℕ) (bs : List (List Entry)) :
    (partsOf o bs).flatMap BlockPart.entries = bs.flatten := by
  induction bs generalizing o with
  | nil => rfl
  | cons b bs ih => rw [partsOf, List.flatMap_cons, ih, List.flatten_cons]

theorem index_key_of_mem_partsOf {o : ℕ} {bs : List (List Entry)} {p : BlockPart}
    (h : p ∈ partsOf o bs) : p.entries ∈ bs ∧ p.index_key = lastKey [] p.entries := by
  induction bs generalizing o with
  | nil => cases h
  | cons b bs ih =>
      rw [partsOf] at h
      rcases List.mem_cons.mp h with rfl | h
      · exact ⟨List.mem_cons_self, rfl⟩
      · exact ⟨List.mem_cons_of_mem _ (ih h).1, (ih h).2⟩

theorem tiled_partsOf (o : ℕ) (bs : List (List Entry)) (last : BlockHandle)
    (hlast : last.offset = o + (dataBytes bs).length) :
    Tiled o ((partsOf o bs).map BlockPart.handle ++ [last])
      (last.offset + (last.size + kBlockTrailerSize)) := by
  induction bs generalizing o with
  | nil =>
      have h : last.offset = o := hlast
      exact ⟨h, by rw [Tiled, h]⟩
  | cons b bs ih =>
      have hsplit : dataBytes (b :: bs) = withTrailer (blockContents b) ++ dataBytes bs := rfl
      refine ⟨rfl, ih (o + ((blockContents b).length + kBlockTrailerSize)) ?_⟩
      rw [hlast, hsplit, List.length_append, withTrailer_length]
      omega

/-- The data blocks of a file are read back from behind `pre`. -/
theorem walkBlocks_eq {pre post : Bytes} {bs : List (List Entry)}
    (hfit : ∀ b ∈ bs, (blockContents b).length < 2 ^ 32)
    (hlen : pre.length + (dataBytes bs).length < 2 ^ 63) :
    walkBlocks (RFile.ofBytes (pre ++ (dataBytes bs ++ post))) (indexEntries pre.length bs) =
      pure (.ok (partsOf pre.length bs)) := by
  induction bs generalizing pre with
  | nil => rfl
  | cons b bs ih =>
      have hb := hfit b List.mem_cons_self
      have hsplit : dataBytes (b :: bs) = withTrailer (blockContents b) ++ dataBytes bs := rfl
      have hhandle : BlockHandle.decodeFrom (BlockHandle.mk pre.length (blockContents b).length).encode =
          .ok (⟨pre.length, (blockContents b).length⟩, []) := by
        have := BlockHandle.decodeFrom_encode (h := ⟨pre.length, (blockContents b).length⟩)
          ⟨by simp only; omega, by simp only; omega⟩ []
        rwa [List.append_nil] at this
      have hread : readBlock (RFile.ofBytes (pre ++ (dataBytes (b :: bs) ++ post)))
          ⟨pre.length, (blockContents b).length⟩ = .ok (.ok (blockContents b)) := by
        rw [hsplit, List.append_assoc]
        exact readBlock_withTrailer (by omega) (add_trailer_le hb)
      have hrest := @ih (pre ++ withTrailer (blockContents b))
        (fun c hc => hfit c (List.mem_cons_of_mem _ hc)) (by
          rw [hsplit, List.length_append] at hlen
          rw [List.length_append]
          omega)
      have hfile : pre ++ withTrailer (blockContents b) ++ (dataBytes bs ++ post) =
          pre ++ (dataBytes (b :: bs) ++ post) := by
        rw [hsplit]
        simp only [List.append_assoc]
      rw [List.length_append, withTrailer_length, hfile] at hrest
      rw [indexEntries, walkBlocks]
      simp only [hhandle, hread, Block.ofExcept_ok_bind, new_blockContents hb, Block.walk_eq hb,
        pure_bind, hrest]
      rfl

theorem walk_tableOf {es : List Entry} (hfit : BlocksFit es) :
    (tableOf es).walk = pure (.ok (partsOf 0 (dataBlocks es))) := by
  have hlt := hfit.dataBytes_length_lt
  have hindex : (blockContents (indexEntries 0 (dataBlocks es))).length < 2 ^ 32 := hfit.2
  have hblocks := @walkBlocks_eq []
    (withTrailer (indexContents (dataBlocks es)) ++ (footerOf (dataBlocks es)).encode) _ hfit.1
    (by rw [List.length_nil]; omega)
  rw [List.nil_append, List.length_nil] at hblocks
  rw [Table.walk, tableOf, Block.walk_eq hindex, pure_bind, tableBytes]
  exact hblocks

/-- **A written table is read back.**  The table opens; the walk over it yields the added pairs in
order; each index key is the last key of its block; blocks, trailers and footer tile the file. -/
theorem table_round_trip (file : FILE) (fs : FileSystem) (es : List Entry) (hfit : BlocksFit es) :
    ∃ b fs₁, ((TableBuilder.new file).buildFrom es).run (disk unbounded) (fs.insert file []) =
        .done (Status.OK, b) fs₁ ∧ b.file_size = (fs₁.get file).length ∧
      ∃ t fs₂, (Table.openTable file).run (disk unbounded) fs₁ = .done (.ok t) fs₂ ∧
      ∃ parts, t.walk = pure (.ok parts) ∧ parts.flatMap BlockPart.entries = es ∧
        (∀ p ∈ parts, ∃ e, p.entries.getLast? = some e ∧ p.index_key = e.1) ∧
      ∃ footer rest, Footer.decodeFrom
          ((fs₁.get file).drop ((fs₁.get file).length - Footer.kEncodedLength)) =
            .ok (footer, rest) ∧
        Tiled 0 (parts.map BlockPart.handle ++ [footer.index_handle])
          ((fs₁.get file).length - Footer.kEncodedLength) := by
  have hlen := tableBytes_length es
  have hlt := hfit.dataBytes_length_lt
  obtain ⟨b, hrun, hsize, hopen⟩ := run_build_open file fs hfit
  obtain ⟨rest, hfooter⟩ := footer_of_tableBytes hfit.tableBytes_length_lt
  refine ⟨b, _, hrun, ?_, tableOf es, _, hopen, partsOf 0 (dataBlocks es), ?_, ?_, ?_,
    footerOf (dataBlocks es), rest, ?_, ?_⟩
  · rw [FileSystem.get_insert, hsize]
  · exact walk_tableOf hfit
  · rw [partsOf_entries, dataBlocks_flatten]
  · intro p hp
    obtain ⟨hmem, hkey⟩ := index_key_of_mem_partsOf hp
    have hne := ne_nil_of_mem_cutBlocks hmem
    exact ⟨_, List.getLast?_eq_some_getLast hne, hkey.trans (lastKey_eq_getLast hne [])⟩
  · rw [FileSystem.get_insert]
    exact hfooter
  · rw [FileSystem.get_insert, hlen, Nat.add_sub_cancel]
    exact tiled_partsOf 0 (dataBlocks es) (footerOf (dataBlocks es)).index_handle
      (Nat.zero_add _).symm

/-- Two pairs, of which the second key continues the first. -/
theorem table_round_trip_pair :
    ∃ b fs₁ t fs₂ parts, ((TableBuilder.new (ascii "db/1.ldb")).buildFrom [([1], [2]), ([1, 3], [4])]).run
        (disk unbounded) (AList.insert (ascii "db/1.ldb") [] ∅) = .done (Status.OK, b) fs₁ ∧
      b.file_size = (fs₁.get (ascii "db/1.ldb")).length ∧
      (Table.openTable (ascii "db/1.ldb")).run (disk unbounded) fs₁ = .done (.ok t) fs₂ ∧
      t.walk = pure (.ok parts) ∧ parts.flatMap BlockPart.entries = [([1], [2]), ([1, 3], [4])] := by
  obtain ⟨b, fs₁, hrun, hsize, t, fs₂, hopen, parts, hwalk, hentries, -⟩ :=
    table_round_trip (ascii "db/1.ldb") ∅ [([1], [2]), ([1, 3], [4])] (blocksFit_of_footprint (by decide))
  exact ⟨b, fs₁, t, fs₂, parts, hrun, hsize, hopen, hwalk, hentries⟩

end MiniLevelDB
