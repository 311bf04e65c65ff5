import MiniLevelDB.TableFormat

/-! # The table builder

`table/table_builder.cc`.  Entries go into the open data block; a block is written out when its
size estimate reaches the block size, and an index entry is made of its last key and its handle.

`dataBlocks es` are the blocks the entries `es` are cut into, `indexEntries` the entries of the
index block and `tableBytes es` the whole file.  `buildFrom_wp` says that adding `es` and finishing
writes `tableBytes es`. -/

namespace MiniLevelDB

open Effect Posix

structure TableBuilder where
  file : FILE
  data_block_builder : BlockBuilder
  index_block_builder : BlockBuilder
  last_key : Bytes
  file_size : ℕ
  finished : Bool

namespace TableBuilder

def kBlockSize : ℕ := 4 * 1024

/-- `TableBuilder(file)`. -/
def new (file : FILE) : TableBuilder :=
  ⟨file, BlockBuilder.empty, BlockBuilder.empty, [], 0, false⟩

/-- `FlushDataBlock`. -/
def flushDataBlock (b : TableBuilder) : FileProg (Status × TableBuilder) :=
  if b.data_block_builder.buffer.isEmpty then .ret (Status.OK, b)
  else
    -- the block stays finished in the builder when it cannot be written
    let block_contents := b.data_block_builder.finish
    let b := { b with data_block_builder := { b.data_block_builder with buffer := block_contents } }
    writeBlock b.file block_contents >>= fun (s, handle) =>
      if !s.ok then .ret (s, b)
      else
        .ret (Status.OK,
          { b with
            file_size := (b.file_size + (block_contents.length + kBlockTrailerSize)) % 2 ^ 64
            index_block_builder := b.index_block_builder.add b.last_key handle.encode
            data_block_builder := BlockBuilder.empty })

/-- `Add`. -/
def add (b : TableBuilder) (key value : Bytes) : FileProg (Status × TableBuilder) :=
  if b.finished then .ret (Status.invalidArgument "table already finished", b)
  else
    let b := { b with data_block_builder := b.data_block_builder.add key value, last_key := key }
    if b.data_block_builder.currentSizeEstimate ≥ kBlockSize then b.flushDataBlock
    else .ret (Status.OK, b)

/-- `Finish`. -/
def finish (b : TableBuilder) : FileProg (Status × TableBuilder) :=
  if b.finished then .ret (Status.invalidArgument "table already finished", b)
  else
    b.flushDataBlock >>= fun (s, b) =>
      if !s.ok then .ret (s, b)
      else
        let index_contents := b.index_block_builder.finish
        let b :=
          { b with index_block_builder := { b.index_block_builder with buffer := index_contents } }
        writeBlock b.file index_contents >>= fun (s, index_handle) =>
          if !s.ok then .ret (s, b)
          else
            let b := { b with
              file_size := (b.file_size + (index_contents.length + kBlockTrailerSize)) % 2 ^ 64 }
            let footer_buf := Footer.encode ⟨⟨0, 0⟩, index_handle⟩
            fwrite b.file footer_buf >>= fun n =>
              if n ≠ footer_buf.length then
                .ret (Status.ioError (ascii "while writing footer"), b)
              else
                fflush b.file >>= fun _ =>
                  .ret (Status.OK, { b with
                    file_size := (b.file_size + footer_buf.length) % 2 ^ 64
                    finished := true })

/-- Entries added one after the other, up to the first that is not OK, then `Finish`. -/
def buildFrom (b : TableBuilder) : List Entry → FileProg (Status × TableBuilder)
  | [] => b.finish
  | e :: es => b.add e.1 e.2 >>= fun (s, b) => if !s.ok then .ret (s, b) else b.buildFrom es

/-- `~TableBuilder`. -/
def close (b : TableBuilder) : FileProg Unit :=
  fflush b.file >>= fun _ => fclose b.file >>= fun _ => .ret ()

end TableBuilder

/-! ### Layout -/

/-- The size estimate of a block of `es`. -/
def sizeEstimate (es : List Entry) : ℕ := (BlockBuilder.empty.addAll es).currentSizeEstimate

/-- The data blocks of entries that follow the entries `cur` of the open block. -/
def cutBlocks (cur : List Entry) : List Entry → List (List Entry)
  | [] => if cur = [] then [] else [cur]
  | e :: es =>
      if sizeEstimate (cur ++ [e]) ≥ TableBuilder.kBlockSize then (cur ++ [e]) :: cutBlocks [] es
      else cutBlocks (cur ++ [e]) es

/-- The data blocks of a table. -/
def dataBlocks (es : List Entry) : List (List Entry) := cutBlocks [] es

/-- The data blocks as they lie in the file. -/
def dataBytes (bs : List (List Entry)) : Bytes := bs.flatMap fun b => withTrailer (blockContents b)

/-- The index entries of data blocks that start at offset `o`. -/
def indexEntries : ℕ → List (List Entry) → List Entry
  | _, [] => []
  | o, b :: bs =>
      (lastKey [] b, (BlockHandle.mk o (blockContents b).length).encode) ::
        indexEntries (o + ((blockContents b).length + kBlockTrailerSize)) bs

/-- The contents of the index block. -/
def indexContents (bs : List (List Entry)) : Bytes := blockContents (indexEntries 0 bs)

/-- The footer of a table with data blocks `bs`. -/
def footerOf (bs : List (List Entry)) : Footer :=
  ⟨⟨0, 0⟩, ⟨(dataBytes bs).length, (indexContents bs).length⟩⟩

/-- The file of a table. -/
def tableBytes (es : List Entry) : Bytes :=
  dataBytes (dataBlocks es) ++
    (withTrailer (indexContents (dataBlocks es)) ++ (footerOf (dataBlocks es)).encode)

/-- Every data block and the index block are below `2 ^ 32` bytes. -/
def BlocksFit (es : List Entry) : Prop :=
  (∀ b ∈ dataBlocks es, (blockContents b).length < 2 ^ 32) ∧
    (indexContents (dataBlocks es)).length < 2 ^ 32

instance (es : List Entry) : Decidable (BlocksFit es) :=
  inferInstanceAs (Decidable (_ ∧ _))

theorem cutBlocks_flatten (cur es : List Entry) : (cutBlocks cur es).flatten = cur ++ es := by
  induction es generalizing cur with
  | nil =>
      rw [cutBlocks]
      split
      · rename_i h
        simp [h]
      · simp
  | cons e es ih =>
      rw [cutBlocks]
      split <;> simp [ih]

/-- Nothing is lost or repeated by the cuts. -/
@[simp] theorem dataBlocks_flatten (es : List Entry) : (dataBlocks es).flatten = es :=
  cutBlocks_flatten [] es

theorem ne_nil_of_mem_cutBlocks {cur es b : List Entry} (h : b ∈ cutBlocks cur es) : b ≠ [] := by
  induction es generalizing cur with
  | nil =>
      rw [cutBlocks] at h
      split at h
      · cases h
      · rename_i hne
        exact List.mem_singleton.mp h ▸ hne
  | cons e es ih =>
      rw [cutBlocks] at h
      split at h
      · rcases List.mem_cons.mp h with rfl | h
        · simp
        · exact ih h
      · exact ih h

@[simp] theorem dataBytes_append (bs cs : List (List Entry)) :
    dataBytes (bs ++ cs) = dataBytes bs ++ dataBytes cs := List.flatMap_append

theorem dataBytes_singleton (b : List Entry) : dataBytes [b] = withTrailer (blockContents b) :=
  List.flatMap_singleton _ b

theorem indexEntries_append (o : ℕ) (bs : List (List Entry)) (b : List Entry) :
    indexEntries o (bs ++ [b]) = indexEntries o bs ++
      [(lastKey [] b, (BlockHandle.mk (o + (dataBytes bs).length) (blockContents b).length).encode)] := by
  induction bs generalizing o with
  | nil => rfl
  | cons c bs ih =>
      rw [List.cons_append, indexEntries, ih, indexEntries, List.cons_append]
      simp only [dataBytes, List.flatMap_cons, List.length_append, withTrailer_length, Nat.add_assoc]

@[simp] theorem indexEntries_length (o : ℕ) (bs : List (List Entry)) :
    (indexEntries o bs).length = bs.length := by
  induction bs generalizing o with
  | nil => rfl
  | cons b bs ih => rw [indexEntries, List.length_cons, ih, List.length_cons]

/-! ### Sizes -/

theorem lastKey_eq_getLast {es : List Entry} (h : es ≠ []) (prev : Bytes) :
    lastKey prev es = (es.getLast h).1 := by
  obtain ⟨init, e, rfl⟩ := (List.eq_nil_or_concat' es).resolve_left h
  rw [lastKey_append, List.getLast_append_singleton]

theorem entryCost_le_footprint (e : Entry) : entryCost e ≤ e.footprint := by
  unfold entryCost Entry.footprint
  omega

/-- The index entries cost no more than the entries they lead to take in memory. -/
theorem indexEntries_cost_le (o : ℕ) {bs : List (List Entry)} (h : ∀ b ∈ bs, b ≠ []) :
    ((indexEntries o bs).map entryCost).sum ≤ (bs.flatten.map Entry.footprint).sum := by
  induction bs generalizing o with
  | nil => simp [indexEntries]
  | cons b bs ih =>
      have hne := h b List.mem_cons_self
      have hrest := ih (o + ((blockContents b).length + kBlockTrailerSize))
        fun c hc => h c (List.mem_cons_of_mem _ hc)
      have hhandle := (BlockHandle.mk o (blockContents b).length).encode_length_le
      have hlast : (b.getLast hne).footprint ≤ (b.map Entry.footprint).sum :=
        List.le_sum_of_mem (List.mem_map_of_mem (List.getLast_mem hne))
      simp only [indexEntries, List.map_cons, List.sum_cons, List.flatten_cons, List.map_append,
        List.sum_append, lastKey_eq_getLast hne, entryCost]
      unfold Entry.footprint BlockHandle.kMaxEncodedLength at *
      omega

/-- Entries that take less than `2 ^ 32` bytes of memory make blocks that fit. -/
theorem blocksFit_of_footprint {es : List Entry}
    (h : (es.map Entry.footprint).sum + 4 < 2 ^ 32) : BlocksFit es := by
  constructor
  · intro b hb
    have hsub : (b.map Entry.footprint).sum ≤ (es.map Entry.footprint).sum := by
      have hsub := (List.sublist_flatten_of_mem hb).map Entry.footprint
      rw [dataBlocks_flatten] at hsub
      exact hsub.sum_le_sum fun _ _ => Nat.zero_le _
    have hcost : (b.map entryCost).sum ≤ (b.map Entry.footprint).sum :=
      List.sum_le_sum fun e _ => entryCost_le_footprint e
    have := blockContents_length_le b
    omega
  · have h1 := blockContents_length_le (indexEntries 0 (dataBlocks es))
    have h2 := indexEntries_cost_le 0 fun b hb => @ne_nil_of_mem_cutBlocks [] es b hb
    rw [show cutBlocks [] es = dataBlocks es from rfl, dataBlocks_flatten] at h2
    unfold indexContents
    omega

/-! ### What the builder writes -/

namespace TableBuilder

variable {room : ℕ → Bool} {Q : Status × TableBuilder → FileSystem → Prop} {C : FileSystem → Prop}
  {fs : FileSystem}

/-- The builder has written the blocks `bs`, and `cur` is in the open block. -/
structure Holds (b : TableBuilder) (bs : List (List Entry)) (cur : List Entry) : Prop where
  data_eq : b.data_block_builder = BlockBuilder.empty.addAll cur
  index_eq : b.index_block_builder = BlockBuilder.empty.addAll (indexEntries 0 bs)
  key_eq : cur ≠ [] → b.last_key = lastKey [] cur
  size_eq : b.file_size = (dataBytes bs).length % 2 ^ 64
  open_eq : b.finished = false

theorem holds_new (file : FILE) : (new file).Holds [] [] :=
  ⟨rfl, rfl, fun h => absurd rfl h, rfl, rfl⟩

theorem entryBytes_ne_nil (shared : ℕ) (key value : Bytes) : entryBytes shared key value ≠ [] := by
  intro h
  have hlen := congrArg List.length h
  have hpos := putVarint32_length_pos shared
  simp only [entryBytes, List.length_append, List.length_nil] at hlen
  omega

theorem buffer_isEmpty {cur : List Entry} :
    (BlockBuilder.empty.addAll cur).buffer.isEmpty = true ↔ cur = [] := by
  rw [BlockBuilder.addAll_eq, List.isEmpty_iff]
  cases cur with
  | nil => simp [encodeEntries]
  | cons e es => simp [encodeEntries, entryBytes_ne_nil]

/-- The rule of `FlushDataBlock`, in a file that grows to at most `n` bytes. -/
theorem flushDataBlock_wp {b : TableBuilder} {bs : List (List Entry)} {cur : List Entry} {n : ℕ}
    (hb : b.Holds bs cur) (hn : (dataBytes (bs ++ cutBlocks cur [])).length ≤ n)
    (hC : ∀ x, x.length ≤ n → C (fs.insert b.file x))
    (hQ : ∀ b', b'.file = b.file → b'.Holds (bs ++ cutBlocks cur []) [] →
      Q (Status.OK, b') (fs.insert b.file (dataBytes (bs ++ cutBlocks cur [])))) :
    b.flushDataBlock.wp (disk room) Q C (fs.insert b.file (dataBytes bs)) := by
  have hC' := hC _ hn
  have hC₀ : C (fs.insert b.file (dataBytes bs)) := by
    apply hC
    rw [dataBytes_append, List.length_append] at hn
    omega
  unfold flushDataBlock
  rw [hb.data_eq]
  by_cases hcur : cur = []
  · subst hcur
    rw [if_pos (buffer_isEmpty.mpr rfl)]
    rw [cutBlocks, if_pos rfl, List.append_nil] at hQ
    exact Prog.wp_ret hC₀ (hQ b rfl hb)
  · rw [if_neg (mt buffer_isEmpty.mp hcur), BlockBuilder.finish_addAll]
    rw [cutBlocks, if_neg hcur] at hQ hn hC'
    refine Prog.wp_bind (writeBlock_wp hC₀ (fun x hx => ?_) ?_)
    · rw [FileSystem.append_insert]
      apply hC
      rw [dataBytes_append, dataBytes_singleton, List.length_append] at hn
      have := hx.length_le
      rw [List.length_append]
      omega
    · rw [FileSystem.append_insert, FileSystem.get_insert, ← dataBytes_singleton, ← dataBytes_append]
      refine Prog.wp_ret hC' (hQ _ rfl ⟨rfl, ?_, fun h => absurd rfl h, ?_, hb.open_eq⟩)
      · rw [indexEntries_append, BlockBuilder.addAll_append, ← hb.index_eq, Nat.zero_add,
          hb.key_eq hcur]
      · rw [dataBytes_append, dataBytes_singleton, List.length_append, withTrailer_length, hb.size_eq]
        exact Nat.mod_add_mod _ _ _

theorem Holds.add {b : TableBuilder} {bs : List (List Entry)} {cur : List Entry}
    (hb : b.Holds bs cur) (e : Entry) :
    Holds { b with data_block_builder := b.data_block_builder.add e.1 e.2, last_key := e.1 } bs
      (cur ++ [e]) :=
  ⟨by rw [hb.data_eq, BlockBuilder.addAll_append], hb.index_eq,
    fun _ => (lastKey_append [] cur e).symm, hb.size_eq, hb.open_eq⟩

theorem add_wp {b : TableBuilder} {bs : List (List Entry)} {cur : List Entry} {e : Entry} {n : ℕ}
    (hb : b.Holds bs cur) (hbs : (dataBytes bs).length ≤ n)
    (hn : sizeEstimate (cur ++ [e]) ≥ kBlockSize → (dataBytes (bs ++ [cur ++ [e]])).length ≤ n)
    (hC : ∀ x, x.length ≤ n → C (fs.insert b.file x))
    (hcut : ∀ b', b'.file = b.file → sizeEstimate (cur ++ [e]) ≥ kBlockSize →
      b'.Holds (bs ++ [cur ++ [e]]) [] →
      Q (Status.OK, b') (fs.insert b.file (dataBytes (bs ++ [cur ++ [e]]))))
    (hopen : ∀ b', b'.file = b.file → ¬ sizeEstimate (cur ++ [e]) ≥ kBlockSize →
      b'.Holds bs (cur ++ [e]) → Q (Status.OK, b') (fs.insert b.file (dataBytes bs))) :
    (b.add e.1 e.2).wp (disk room) Q C (fs.insert b.file (dataBytes bs)) := by
  have hadd := hb.add e
  have hestimate : (b.data_block_builder.add e.1 e.2).currentSizeEstimate =
      sizeEstimate (cur ++ [e]) := by
    rw [sizeEstimate, BlockBuilder.addAll_append, hb.data_eq]
  have hblock : cutBlocks (cur ++ [e]) [] = [cur ++ [e]] := by
    rw [cutBlocks, if_neg (by simp)]
  unfold TableBuilder.add
  rw [if_neg (by simp [hb.open_eq])]
  simp only [hestimate]
  split
  · rename_i hge
    refine flushDataBlock_wp hadd (hblock.symm ▸ hn hge) hC (fun b' hfile hb' => ?_)
    rw [hblock] at hb' ⊢
    exact hcut b' hfile hge hb'
  · rename_i hlt
    exact Prog.wp_ret (hC _ hbs) (hopen _ rfl hlt hadd)

theorem finish_wp {b : TableBuilder} {bs : List (List Entry)} {cur : List Entry}
    (hb : b.Holds bs cur) {file : Bytes} (hC : ∀ x, x.length ≤ file.length → C (fs.insert b.file x))
    (hfile : file = dataBytes (bs ++ cutBlocks cur []) ++
      (withTrailer (indexContents (bs ++ cutBlocks cur [])) ++
        (footerOf (bs ++ cutBlocks cur [])).encode))
    (hQ : ∀ b', b'.file = b.file → b'.file_size = file.length % 2 ^ 64 → room file.length = true →
      Q (Status.OK, b') (fs.insert b.file file)) :
    b.finish.wp (disk room) Q C (fs.insert b.file (dataBytes bs)) := by
  have hlen := congrArg List.length hfile
  rw [List.length_append, List.length_append] at hlen
  unfold finish
  rw [hb.open_eq, if_neg (by simp)]
  refine Prog.wp_bind (flushDataBlock_wp hb (by omega) hC (fun b' hb'file hb' => ?_))
  generalize bs ++ cutBlocks cur [] = cs at hfile hlen hb' ⊢
  simp only [Status.ok_OK, Bool.not_true, Bool.false_eq_true, if_false]
  rw [hb'.index_eq, BlockBuilder.finish_addAll, ← hb'file]
  rw [← hb'file] at hC hQ
  have hindex : C (fs.insert b'.file (dataBytes cs ++ withTrailer (indexContents cs))) := by
    apply hC
    rw [List.length_append]
    omega
  refine Prog.wp_bind (writeBlock_wp (hC _ (by omega)) (fun x hx => ?_) ?_)
  · rw [FileSystem.append_insert]
    apply hC
    have := hx.length_le
    rw [List.length_append]
    exact (Nat.add_le_add_left this _).trans (by
      rw [← indexContents]
      omega)
  simp only [Status.ok_OK, Bool.not_true, Bool.false_eq_true, if_false]
  rw [FileSystem.append_insert, FileSystem.get_insert]
  refine fwrite_room_wp hindex (fun x hx => ?_) fun hroom => ?_
  · rw [FileSystem.append_insert]
    apply hC
    have := hx.length_le
    rw [List.length_append, List.length_append]
    exact (Nat.add_le_add_left this _).trans (by
      rw [← indexContents]
      change _ + (footerOf cs).encode.length ≤ _
      omega)
  rw [FileSystem.get_insert, ← List.length_append, List.append_assoc] at hroom
  rw [if_neg (by simp), FileSystem.append_insert, List.append_assoc]
  have hall : C (fs.insert b'.file file) := hC _ (le_refl _)
  rw [hfile] at hall
  refine fflush_wp (Prog.wp_ret hall (hfile ▸ hQ _ rfl ?_ ?_))
  · rw [hfile, hb'.size_eq]
    simp only [List.length_append, withTrailer_length, Nat.mod_add_mod]
    rw [Nat.add_assoc]
    rfl
  · rw [hfile]
    exact hroom

/-- **Adding entries and finishing writes the table.** -/
theorem buildFrom_wp {b : TableBuilder} {bs : List (List Entry)} {cur es : List Entry}
    (hb : b.Holds bs cur) {file : Bytes} (hC : ∀ x, x.length ≤ file.length → C (fs.insert b.file x))
    (hfile : file = dataBytes (bs ++ cutBlocks cur es) ++
      (withTrailer (indexContents (bs ++ cutBlocks cur es)) ++
        (footerOf (bs ++ cutBlocks cur es)).encode))
    (hQ : ∀ b', b'.file = b.file → b'.file_size = file.length % 2 ^ 64 → room file.length = true →
      Q (Status.OK, b') (fs.insert b.file file)) :
    (b.buildFrom es).wp (disk room) Q C (fs.insert b.file (dataBytes bs)) := by
  have hlen := congrArg List.length hfile
  rw [List.length_append, dataBytes_append, List.length_append] at hlen
  induction es generalizing b bs cur with
  | nil => exact finish_wp hb hC hfile hQ
  | cons e es ih =>
      rw [buildFrom]
      refine Prog.wp_bind (add_wp hb (by omega) (fun hge => ?_) hC (fun b' hb'file hge hb' => ?_)
        (fun b' hb'file hlt hb' => ?_))
      · rw [cutBlocks, if_pos hge, ← List.singleton_append, dataBytes_append, List.length_append] at hlen
        rw [dataBytes_append, List.length_append]
        omega
      · rw [cutBlocks, if_pos hge, List.append_cons] at hfile
        simp only [Status.ok_OK, Bool.not_true, Bool.false_eq_true, if_false, ← hb'file] at hC hQ ⊢
        apply ih hb' hC hfile hQ
        rw [hfile, List.length_append, dataBytes_append, List.length_append]
      · rw [cutBlocks, if_neg hlt] at hfile hlen
        simp only [Status.ok_OK, Bool.not_true, Bool.false_eq_true, if_false, ← hb'file] at hC hQ ⊢
        exact ih hb' hC hfile hQ hlen

/-- A new builder writes the file of the table. -/
theorem buildFrom_new_wp {file : FILE} {es : List Entry}
    (hC : ∀ x, x.length ≤ (tableBytes es).length → C (fs.insert file x))
    (hQ : ∀ b', b'.file = file → b'.file_size = (tableBytes es).length % 2 ^ 64 →
      room (tableBytes es).length = true → Q (Status.OK, b') (fs.insert file (tableBytes es))) :
    ((new file).buildFrom es).wp (disk room) Q C (fs.insert file []) :=
  buildFrom_wp (holds_new file) hC rfl hQ

end TableBuilder
end MiniLevelDB
