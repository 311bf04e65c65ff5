import MiniLevelDB.TableBuilder

/-! # The table reader

`table/table.cc`.  An open table is its file and its index block; `get` looks the user key up in
the index block, reads one data block and looks the user key up there.  `load_tableBytes` says that
the file a builder has written opens as the table of its entries, `tableOf`. -/

namespace MiniLevelDB

open Effect Posix

structure Table where
  file : RFile
  index_block : Block

namespace Table

/-- `Open` on an open file. -/
def load (file : RFile) : Except Fault (Except Status Table) :=
  if file.size < Footer.kEncodedLength then
    .ok (.error (Status.corruption "file too small to be sstable"))
  else
    let footer_buf := file.pread (file.size - Footer.kEncodedLength) Footer.kEncodedLength
    if footer_buf.length ≠ Footer.kEncodedLength then
      .ok (.error (Status.ioError (ascii "while reading footer")))
    else
      match Footer.decodeFrom footer_buf with
      | .error s => .ok (.error s)
      -- `Open` never uses the rest of the input, also where `remove_prefix` was asked for too much
      | .ok (footer, _) =>
          match readBlock file footer.index_handle with
          | .error f => .error f
          | .ok (.error s) => .ok (.error s)
          | .ok (.ok index_data) =>
              match Block.new index_data with
              | .error f => .error f
              | .ok index_block => .ok (.ok ⟨file, index_block⟩)

/-- The footer cannot be read where a read fails before the end of the file. -/
theorem load_upTo {readable : ℕ} {b : Bytes} (h : readable < b.length) :
    ∃ s, load (RFile.upTo readable b) = .ok (.error s) ∧ s.ok = false := by
  have hsize : (RFile.upTo readable b).size = b.length := rfl
  by_cases hsmall : b.length < Footer.kEncodedLength
  · exact ⟨_, if_pos (hsize ▸ hsmall), rfl⟩
  · have hshort : ((RFile.upTo readable b).pread (b.length - Footer.kEncodedLength)
        Footer.kEncodedLength).length ≠ Footer.kEncodedLength := by
      have hpos : 0 < Footer.kEncodedLength := by decide
      simp only [RFile.upTo, List.length_take, List.length_drop]
      omega
    refine ⟨Status.ioError (ascii "while reading footer"), ?_, rfl⟩
    rw [load, hsize, if_neg hsmall, if_pos hshort]

/-- `Open`. -/
def openTable (fname : Bytes) : FileProg (Except Status Table) :=
  fopen fname .rb >>= fun found =>
    if !found then .ret (.error (Status.ioError (ascii "open table failed: " ++ fname)))
    else
      snapshot fname >>= fun file =>
        match load file with
        | .error f => .fault f
        | .ok (.error s) => fclose fname >>= fun _ => .ret (.error s)
        | .ok (.ok table) => .ret (.ok table)

/-- The contents of the data block an index entry leads to, if its handle decodes and the block can
be read. -/
def dataBlock (t : Table) (handle_encoded : Bytes) : Except Fault (Option Bytes) :=
  match BlockHandle.decodeFrom handle_encoded with
  | .error _ => .ok none
  | .ok (data_handle, _) =>
      match readBlock t.file data_handle with
      | .error f => .error f
      | .ok (.error _) => .ok none
      | .ok (.ok contents) => .ok (some contents)

/-- The second half of `Get`: the lookup in a data block. -/
def getInBlock (user_key contents : Bytes) : Exec LookupState := do
  let data_block ← Exec.ofExcept (Block.new contents)
  let data_it ← data_block.seek user_key Block.newIterator
  if !data_it.valid then return .kNotFound
  else if data_it.key.length < 8 then Exec.ofExcept (.error .outOfBounds)
  else if extractUserKey data_it.key ≠ user_key then return .kNotFound
  else if extractTag data_it.key &&& 0xff ≠ 1 then return .kDeleted
  else do
    let value ← Exec.ofExcept (data_block.value data_it)
    return .kValue value

/-- `Get`. -/
def get (t : Table) (user_key : Bytes) : Exec LookupState := do
  let index_it ← t.index_block.seek user_key Block.newIterator
  if !index_it.valid then return .kNotFound
  else do
    let handle_encoded ← Exec.ofExcept (t.index_block.value index_it)
    match ← Exec.ofExcept (t.dataBlock handle_encoded) with
    | none => return .kNotFound
    | some contents => getInBlock user_key contents

end Table

/-! ### The files builders write -/

/-- The table of the entries `es`. -/
def tableOf (es : List Entry) : Table :=
  ⟨RFile.ofBytes (tableBytes es), blockOf (indexEntries 0 (dataBlocks es))⟩

theorem entryBytes_length_ge (shared : ℕ) (key value : Bytes) :
    3 ≤ (entryBytes shared key value).length := by
  have h1 := putVarint32_length_pos shared
  have h2 := putVarint32_length_pos (key.length - shared)
  have h3 := putVarint32_length_pos value.length
  simp only [entryBytes, List.length_append]
  omega

theorem encodeEntries_length_ge (i : ℕ) (prev : Bytes) (es : List Entry) :
    es.length * 3 ≤ (encodeEntries i prev es).length := by
  induction es generalizing i prev with
  | nil => simp
  | cons e es ih =>
      have h1 := entryBytes_length_ge (sharedAt i prev e.1) e.1 e.2
      have h2 := ih (i + 1) e.1
      simp only [encodeEntries, List.length_append, List.length_cons]
      omega

theorem dataBytes_length_le {bs : List (List Entry)}
    (h : ∀ b ∈ bs, (blockContents b).length < 2 ^ 32) :
    (dataBytes bs).length ≤ bs.length * (2 ^ 32 + kBlockTrailerSize) := by
  induction bs with
  | nil => simp [dataBytes]
  | cons b bs ih =>
      have h1 := h b List.mem_cons_self
      have h2 := ih fun c hc => h c (List.mem_cons_of_mem _ hc)
      rw [dataBytes] at h2
      rw [dataBytes, List.flatMap_cons, List.length_append, withTrailer_length, List.length_cons,
        Nat.add_mul]
      omega

/-- The offsets of a table whose blocks fit are offsets of a file. -/
theorem BlocksFit.dataBytes_length_lt {es : List Entry} (h : BlocksFit es) :
    (dataBytes (dataBlocks es)).length < 2 ^ 63 - 2 ^ 33 := by
  have h1 := dataBytes_length_le h.1
  have h2 := encodeEntries_length_ge 0 [] (indexEntries 0 (dataBlocks es))
  have h3 := blockContents_length (indexEntries 0 (dataBlocks es))
  have h4 := h.2
  rw [indexEntries_length] at h2
  unfold indexContents at h4
  have h5 : (dataBlocks es).length * (2 ^ 32 + kBlockTrailerSize) ≤
      (2 ^ 32 / 3) * (2 ^ 32 + kBlockTrailerSize) := Nat.mul_le_mul_right _ (by omega)
  unfold kBlockTrailerSize at *
  omega

theorem tableBytes_length (es : List Entry) :
    (tableBytes es).length = (dataBytes (dataBlocks es)).length +
      ((indexContents (dataBlocks es)).length + kBlockTrailerSize) + Footer.kEncodedLength := by
  simp only [tableBytes, List.length_append, withTrailer_length, Footer.encode_length]
  omega

theorem BlocksFit.tableBytes_length_lt {es : List Entry} (h : BlocksFit es) :
    (tableBytes es).length < 2 ^ 63 := by
  have h1 := h.dataBytes_length_lt
  have h2 := h.2
  rw [tableBytes_length]
  unfold kBlockTrailerSize Footer.kEncodedLength BlockHandle.kMaxEncodedLength
  omega

/-- The footer of a table is read back from the end of its file. -/
theorem footer_of_tableBytes {es : List Entry} (h : (tableBytes es).length < 2 ^ 63) :
    ∃ rest, Footer.decodeFrom ((tableBytes es).drop ((tableBytes es).length - Footer.kEncodedLength)) =
      .ok (footerOf (dataBlocks es), rest) := by
  have hdrop : (tableBytes es).drop ((tableBytes es).length - Footer.kEncodedLength) =
      (footerOf (dataBlocks es)).encode ++ [] := by
    rw [tableBytes_length, Nat.add_sub_cancel, tableBytes, ← List.append_assoc, List.append_nil]
    exact List.drop_left' (by rw [List.length_append, withTrailer_length])
  rw [tableBytes_length] at h
  rw [hdrop]
  apply Footer.decodeFrom_encode ⟨(by decide : 0 < 2 ^ 64), (by decide : 0 < 2 ^ 64)⟩
  constructor
  · change (dataBytes (dataBlocks es)).length < 2 ^ 64
    omega
  · change (indexContents (dataBlocks es)).length < 2 ^ 64
    omega

/-- Opening a written table comes down to reading its index block. -/
theorem load_tableBytes_read {es : List Entry} (h : (tableBytes es).length < 2 ^ 63) :
    Table.load (RFile.ofBytes (tableBytes es)) =
      match readBlock (RFile.ofBytes (tableBytes es)) (footerOf (dataBlocks es)).index_handle with
      | .error f => .error f
      | .ok (.error s) => .ok (.error s)
      | .ok (.ok index_data) =>
          match Block.new index_data with
          | .error f => .error f
          | .ok index_block => .ok (.ok ⟨RFile.ofBytes (tableBytes es), index_block⟩) := by
  obtain ⟨rest, hfooter⟩ := footer_of_tableBytes h
  have hsize : (RFile.ofBytes (tableBytes es)).size = (tableBytes es).length := rfl
  have hlen := tableBytes_length es
  have hread : (RFile.ofBytes (tableBytes es)).pread
      ((RFile.ofBytes (tableBytes es)).size - Footer.kEncodedLength) Footer.kEncodedLength =
      (tableBytes es).drop ((tableBytes es).length - Footer.kEncodedLength) := by
    rw [hsize]
    exact List.take_of_length_le (by rw [List.length_drop]; omega)
  unfold Table.load
  simp only [hread, hfooter]
  rw [if_neg (by rw [hsize]; omega), if_neg (by rw [List.length_drop]; omega)]

/-- The index block is loaded if a string holds it with its trailer. -/
theorem load_tableBytes_eq {es : List Entry} (h : (tableBytes es).length < 2 ^ 63)
    (hindex : (indexContents (dataBlocks es)).length + kBlockTrailerSize ≤ maxStringSize) :
    Table.load (RFile.ofBytes (tableBytes es)) = match Block.new (indexContents (dataBlocks es)) with
      | .error f => .error f
      | .ok index_block => .ok (.ok ⟨RFile.ofBytes (tableBytes es), index_block⟩) := by
  have hlen := tableBytes_length es
  have hread : readBlock (RFile.ofBytes (tableBytes es)) (footerOf (dataBlocks es)).index_handle =
      .ok (.ok (indexContents (dataBlocks es))) :=
    readBlock_withTrailer (by omega) hindex
  rw [load_tableBytes_read h, hread]

/-- The constructor of the index block counts its restart points right, and a string holds the block with
its trailer. -/
def FewBlocks (es : List Entry) : Prop :=
  restartCount (dataBlocks es).length < 2 ^ 30 ∧
    (indexContents (dataBlocks es)).length + kBlockTrailerSize ≤ maxStringSize

theorem fewBlocks_of_index_lt {es : List Entry} (h : (indexContents (dataBlocks es)).length < 2 ^ 32) :
    FewBlocks es := by
  have hlen := blockContents_length (indexEntries 0 (dataBlocks es))
  rw [indexEntries_length] at hlen
  rw [indexContents] at h
  exact ⟨by omega, add_trailer_le h⟩

theorem FewBlocks.load {es : List Entry} (h : FewBlocks es) (hlen : (tableBytes es).length < 2 ^ 63) :
    ∃ t, Table.load (RFile.ofBytes (tableBytes es)) = .ok (.ok t) := by
  rw [load_tableBytes_eq hlen h.2, indexContents,
    new_blockContents_of_count (by rw [indexEntries_length]; exact h.1)]
  exact ⟨_, rfl⟩

/-- **A written table opens.** -/
theorem load_tableBytes {es : List Entry} (h : BlocksFit es) :
    Table.load (RFile.ofBytes (tableBytes es)) = .ok (.ok (tableOf es)) := by
  rw [load_tableBytes_eq h.tableBytes_length_lt (add_trailer_le h.2), indexContents,
    new_blockContents h.2]
  rfl

theorem openTable_wp {room : ℕ → Bool} {Q : Except Status Table → FileSystem → Prop}
    {C : FileSystem → Prop} {fs : FileSystem} {fname : Bytes} {es : List Entry} (hmem : fname ∈ fs)
    (hbytes : fs.get fname = tableBytes es) (hfit : BlocksFit es) (hC : C fs)
    (hQ : Q (.ok (tableOf es)) fs) : (Table.openTable fname).wp (disk room) Q C fs := by
  refine op_wp hC rfl (fun _ h => h) ?_
  rw [decide_eq_true hmem, if_neg (by simp)]
  refine op_wp hC rfl (fun _ h => h) ?_
  rw [hbytes, load_tableBytes hfit]
  exact Prog.wp_ret hC hQ

/-- A table is written and opened. -/
theorem run_build_open (file : FILE) (fs : FileSystem) {es : List Entry} (hfit : BlocksFit es) :
    ∃ b, ((TableBuilder.new file).buildFrom es).run (disk unbounded) (fs.insert file []) =
        .done (Status.OK, b) (fs.insert file (tableBytes es)) ∧
      b.file_size = (tableBytes es).length ∧
      (Table.openTable file).run (disk unbounded) (fs.insert file (tableBytes es)) =
        .done (.ok (tableOf es)) (fs.insert file (tableBytes es)) := by
  have hlen := tableBytes_length es
  have hlt := hfit.dataBytes_length_lt
  have hindex := hfit.2
  obtain ⟨⟨s, b⟩, fs₁, hrun, ⟨rfl, hsize, rfl⟩⟩ := run_unbounded_of_wp
    (Q := fun r fs' => r.1 = Status.OK ∧ r.2.file_size = (tableBytes es).length % 2 ^ 64 ∧
        fs' = fs.insert file (tableBytes es)) (C := fun _ => True)
    (TableBuilder.buildFrom_new_wp (fun _ _ => trivial) (fun b' _ hsize _ => ⟨rfl, hsize, rfl⟩))
  obtain ⟨t, fs₂, hopen, rfl, rfl⟩ := run_unbounded_of_wp
    (Q := fun t fs' => t = .ok (tableOf es) ∧ fs' = fs.insert file (tableBytes es)) (C := fun _ => True)
    (openTable_wp
      ((AList.mem_insert _).mpr (Or.inl rfl)) (FileSystem.get_insert _ _ _) hfit trivial ⟨rfl, rfl⟩)
  refine ⟨b, hrun, hsize.trans (Nat.mod_eq_of_lt ?_), hopen⟩
  unfold kBlockTrailerSize Footer.kEncodedLength BlockHandle.kMaxEncodedLength at hlen
  omega

end MiniLevelDB
