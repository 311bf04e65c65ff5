import MiniLevelDB.LogRoundTrip

/-! # Short writes

A disk whose `fwrite` may append only the first bytes of its argument and report the short count.
`addEach` calls `AddRecord` for each record in turn, whatever the calls before it returned.

A call none of whose writes is short behaves as on the disk without faults (`run_of_no_short`),
and a call that returns OK is such a call (`addRecord_shorts`).  So the records are lost only
through what a short write leaves behind: its bytes stay in the file, and `block_offset_` does not
count them.  `addEach_reads_back` says that every acknowledged record is read back when each call
that completes its writes starts in step with the file, on a block whose bytes so far are complete
physical records; `short_write_loses_record` is a run that loses one. -/

namespace MiniLevelDB

open Effect Posix

/-- The disk and the number of bytes each later `fwrite` takes at most. -/
structure FaultyDisk where
  files : FileSystem
  limit : ℕ → ℕ
  shorts : ℕ

/-- `fwrite` under a limit; the other operations are those of the disk. -/
def FaultyDisk.ok (d : FaultyDisk) : (o : FileOp) → Option (o.Res × FaultyDisk)
  | .fwrite file data =>
      let n := min (d.limit 0) data.length
      some (n, ⟨d.files.append file (data.take n), fun i => d.limit (i + 1),
        if n < data.length then d.shorts + 1 else d.shorts⟩)
  | o => (FileSystem.ok unbounded d.files o).map fun r => (r.1, { d with files := r.2 })

/-- The disk with short writes; crashes play no role. -/
def faulty : Device FileOp FileOp.Res FaultyDisk where
  ok := FaultyDisk.ok
  torn := fun _ _ _ => False

namespace LogWriter

/-- `AddRecord` for each record in turn, with the status of each call. -/
def addEach (w : LogWriter) : List Bytes → FileProg (List (Bytes × Status) × LogWriter)
  | [] => .ret ([], w)
  | d :: ds => do
      let (s, w) ← w.addRecord d
      let (rs, w) ← w.addEach ds
      return ((d, s) :: rs, w)

end LogWriter

theorem LogWriter.run_addEach_nil {W : Type} {dev : Device FileOp FileOp.Res W} {w : LogWriter} {d : W} :
    (w.addEach []).run dev d = .done ([], w) d := rfl

theorem LogWriter.run_addEach_cons {W : Type} {dev : Device FileOp FileOp.Res W} {w w₁ w₂ : LogWriter}
    {d d₁ d₂ : W} {r : Bytes} {rs : List Bytes} {s : Status} {ss : List (Bytes × Status)}
    (h : (w.addRecord r).run dev d = .done (s, w₁) d₁)
    (h' : (w₁.addEach rs).run dev d₁ = .done (ss, w₂) d₂) :
    (w.addEach (r :: rs)).run dev d = .done ((r, s) :: ss, w₂) d₂ := by
  rw [addEach, Prog.run_bind_done dev h]
  simp only
  rw [Prog.run_bind_done dev h']
  rfl

/-- The records whose `AddRecord` returned OK. -/
def acknowledged (rs : List (Bytes × Status)) : List Bytes := (rs.filter (·.2.ok)).map (·.1)

/-! ### Calls without a short write -/

theorem shorts_le {d d' : FaultyDisk} {o : FileOp} {r : o.Res} (h : faulty.ok d o = some (r, d')) :
    d.shorts ≤ d'.shorts ∧
      (d'.shorts = d.shorts → (disk unbounded).ok d.files o = some (r, d'.files)) := by
  cases o with
  | fwrite file data =>
      obtain ⟨rfl, rfl⟩ := Prod.mk.inj (Option.some.inj h)
      simp only
      split
      · exact ⟨by omega, fun hc => absurd hc (by omega)⟩
      · have hn : min (d.limit 0) data.length = data.length := by omega
        refine ⟨le_refl _, fun _ => ?_⟩
        rw [hn, List.take_length]
        rfl
  | _ =>
      simp only [faulty, FaultyDisk.ok, Option.map_eq_some_iff] at h
      obtain ⟨q, hq, hqr⟩ := h
      obtain ⟨rfl, rfl⟩ := Prod.mk.inj hqr
      exact ⟨le_refl _, fun _ => hq⟩

/-- A run without a short write is a run on the disk without faults. -/
theorem run_of_no_short {α : Type} {p : FileProg α} {d d' : FaultyDisk} {a : α}
    (h : p.run faulty d = .done a d') :
    d.shorts ≤ d'.shorts ∧
      (d'.shorts = d.shorts → p.run (disk unbounded) d.files = .done a d'.files) := by
  induction p generalizing d with
  | ret b =>
      obtain ⟨rfl, rfl⟩ : b = a ∧ d = d' := by simpa [Prog.run] using h
      exact ⟨le_refl _, fun _ => rfl⟩
  | fault f => simp [Prog.run] at h
  | call o k ih =>
      cases ho : faulty.ok d o with
      | none => simp [Prog.run, ho] at h
      | some r =>
          rw [Prog.run_call faulty ho] at h
          obtain ⟨h1, h2⟩ := ih _ h
          obtain ⟨h3, h4⟩ := shorts_le ho
          refine ⟨h3.trans h1, fun heq => ?_⟩
          rw [Prog.run_call (disk unbounded) (h4 (by omega))]
          exact h2 (by omega)

/-! ### The writer on a faulty disk -/

/-- The file has grown. -/
def Grown (file : Bytes) (d d' : FaultyDisk) : Prop :=
  ∃ x, d'.files.get file = d.files.get file ++ x

theorem Grown.refl (file : Bytes) (d : FaultyDisk) : Grown file d d := ⟨[], (List.append_nil _).symm⟩

theorem Grown.trans {file : Bytes} {d d' d'' : FaultyDisk} (h : Grown file d d')
    (h' : Grown file d' d'') : Grown file d d'' := by
  obtain ⟨x, hx⟩ := h
  obtain ⟨y, hy⟩ := h'
  exact ⟨x ++ y, by rw [hy, hx, List.append_assoc]⟩

variable {α : Type} {Q : α → FaultyDisk → Prop}

/-- The rule of an append that may be short. -/
theorem fwrite_faulty_wp {file data : Bytes} {k : ℕ → FileProg α} {d : FaultyDisk}
    (hfull : ∀ d', Grown file d d' → d'.shorts = d.shorts →
      (k data.length).wp faulty Q (fun _ => True) d')
    (hshort : ∀ n d', n < data.length → Grown file d d' →
      (k n).wp faulty Q (fun _ => True) d') :
    (fwrite file data >>= k).wp faulty Q (fun _ => True) d := by
  refine Prog.wp_call trivial (fun _ h => h.elim) ?_
  intro r d' h
  obtain ⟨rfl, rfl⟩ := Prod.mk.inj (Option.some.inj h)
  have hg : Grown file d ⟨d.files.append file (data.take (min (d.limit 0) data.length)),
      fun i => d.limit (i + 1),
      if min (d.limit 0) data.length < data.length then d.shorts + 1 else d.shorts⟩ :=
    ⟨_, FileSystem.get_append _ _ _⟩
  by_cases hn : min (d.limit 0) data.length < data.length
  · exact hshort _ _ hn hg
  · have heq : min (d.limit 0) data.length = data.length := by omega
    have := hfull _ hg (if_neg hn)
    rwa [heq] at this ⊢

namespace LogWriter

variable {w : LogWriter} {d : FaultyDisk}

theorem padTail_faulty_wp {k : Bool → FileProg α}
    (hpadded : ∀ d', Grown w.file d d' → d'.shorts = d.shorts →
      (k true).wp faulty Q (fun _ => True) d')
    (hshort : ∀ d', Grown w.file d d' → (k false).wp faulty Q (fun _ => True) d') :
    (w.padTail >>= k).wp faulty Q (fun _ => True) d := by
  unfold padTail
  simp only
  split
  · refine fwrite_faulty_wp (fun d' hg hs => ?_) (fun n d' hn hg => ?_)
    · rw [List.length_replicate, beq_self_eq_true]
      exact hpadded d' hg hs
    · rw [List.length_replicate] at hn
      rw [beq_eq_false_iff_ne.mpr hn.ne]
      exact hshort d' hg
  · exact hpadded d (Grown.refl _ _) rfl

theorem emitPhysicalRecord_faulty_wp {type : RecordType} {ptr : Bytes} {k : Status → FileProg α}
    (hok : ∀ d', Grown w.file d d' → d'.shorts = d.shorts →
      (k Status.OK).wp faulty Q (fun _ => True) d')
    (hshort : ∀ d' msg, Grown w.file d d' →
      (k (Status.ioError msg)).wp faulty Q (fun _ => True) d') :
    (w.emitPhysicalRecord type ptr >>= k).wp faulty Q (fun _ => True) d := by
  rw [emitPhysicalRecord_bind]
  refine fwrite_faulty_wp (fun d' hg hs => ?_) (fun n d' hn hg => ?_)
  · rw [recordHeader_length, if_neg (by simp)]
    split
    · refine fwrite_faulty_wp (fun d'' hg' hs' => ?_) (fun n d'' hn hg' => ?_)
      · rw [if_neg (by simp)]
        exact hok d'' (hg.trans hg') (hs'.trans hs)
      · rw [if_pos hn.ne]
        exact hshort d'' _ (hg.trans hg')
    · exact hok d' hg hs
  · rw [recordHeader_length] at hn
    rw [if_pos hn.ne]
    exact hshort d' _ hg

/-- A call on a faulty disk lets the file grow, and returns OK only when no write of it was
short. -/
theorem addFragments_faulty_wp (w : LogWriter) (ptr : Bytes) (first : Bool) (d : FaultyDisk) :
    (w.addFragments ptr first).wp faulty
      (fun r d' => r.2.file = w.file ∧ Grown w.file d d' ∧
        (r.1.ok = true → d'.shorts = d.shorts)) (fun _ => True) d := by
  induction w, ptr, first using addFragments.induct generalizing d with
  | case1 w ptr first ih =>
      rw [addFragments]
      refine padTail_faulty_wp (fun d₁ hg₁ hs₁ => ?_) (fun d₁ hg₁ => ?_)
      · rw [if_pos rfl]
        rw [← w.skipTail_file] at hg₁ ⊢
        refine emitPhysicalRecord_faulty_wp (fun d₂ hg₂ hs₂ => ?_) (fun d₂ msg hg₂ => ?_)
        · rw [if_pos Status.ok_OK]
          split
          · rename_i hlt
            refine Prog.wp_mono (ih hlt d₂) ?_ (fun _ _ => trivial)
            rintro ⟨s, w'⟩ d₃ ⟨hfile, hg₃, hs₃⟩
            exact ⟨hfile, (hg₁.trans hg₂).trans hg₃, fun h => (hs₃ h).trans (hs₂.trans hs₁)⟩
          · refine Prog.wp_call trivial (fun _ h => h.elim) (fun r d₃ h => ?_)
            obtain ⟨-, rfl⟩ := Prod.mk.inj (Option.some.inj h)
            exact Prog.wp_ret trivial ⟨rfl, hg₁.trans hg₂, fun _ => hs₂.trans hs₁⟩
        · exact Prog.wp_ret trivial ⟨rfl, hg₁.trans hg₂, fun h => absurd h (by simp)⟩
      · exact Prog.wp_ret trivial ⟨rfl, hg₁, fun h => absurd h (by simp)⟩

end LogWriter

/-! ### Resynchronisation -/

theorem faulty_ok_isSome (d : FaultyDisk) (o : FileOp) : (faulty.ok d o).isSome = true := by
  cases o with
  | fwrite file data => rfl
  | _ => simp only [faulty, FaultyDisk.ok, Option.isSome_map, unbounded_ok_isSome]

/-- Whatever stands before a block boundary, the reader comes to the boundary. -/
theorem walk_to_block {b : Bytes} {off n : ℕ} (hmod : n % kBlockSize = 0) (hoff : off ≤ n)
    (hn : n ≤ b.length) : ∃ es, Walk b off es n := by
  have hb := kBlockSize_eq
  induction h : n - off using Nat.strongRecOn generalizing off with
  | ind m ih =>
      rcases hoff.lt_or_eq with hlt | rfl
      · have hend : blockEnd off ≤ n := by
          rw [blockEnd_eq]
          rw [kBlockSize_eq] at *
          omega
        cases hs : next b off with
        | none =>
            unfold next at hs
            simp only at hs
            split_ifs at hs
            all_goals first | omega | (split at hs <;> cases hs)
        | some s =>
            obtain ⟨e, off'⟩ := s
            have hlt' := lt_of_next hs
            have hle' : off' ≤ n := by
              rcases next_cases hs with ⟨-, -, -, rfl⟩ | ⟨-, -, rfl, -⟩ | ⟨_, _, -, -, hle, -⟩ <;>
                omega
            obtain ⟨es, hw⟩ := ih (n - off') (by omega) hle' rfl
            exact ⟨_, .step hs hw⟩
      · exact ⟨[], .refl _⟩

/-- Two walks from one offset run along each other. -/
theorem Walk.linear {b : Bytes} {off m n : ℕ} {es fs : List Event} (h : Walk b off es m)
    (h' : Walk b off fs n) (hle : m ≤ n) : ∃ gs, fs = es ++ gs ∧ Walk b m gs n := by
  induction h generalizing fs with
  | refl off => exact ⟨fs, rfl, h'⟩
  | @step off off' m e es hs hw ih =>
      cases h' with
      | refl => exact absurd (lt_of_next hs) (by have := hw.le; omega)
      | @step _ off'' _ e' es' hs' hw' =>
          obtain ⟨rfl, rfl⟩ := Prod.mk.inj (Option.some.inj (hs.symm.trans hs'))
          obtain ⟨gs, rfl, hg⟩ := ih hw' hle
          exact ⟨gs, by rw [List.append_assoc], hg⟩

/-- From some block boundary on the file consists of complete physical records. -/
def Clean (b : Bytes) : Prop :=
  ∃ p rs, p.length % kBlockSize = 0 ∧ Placed p.length rs ∧ b = p ++ render p.length rs

/-- The reader passes the end of such a file. -/
theorem Clean.walk {b : Bytes} (h : Clean b) : ∃ es, Walk b 0 es b.length := by
  obtain ⟨p, rs, hmod, hp, rfl⟩ := h
  obtain ⟨es, hw⟩ := walk_to_block (b := p) hmod (Nat.zero_le _) (le_refl _)
  have hrs := walk_render hp rfl []
  rw [List.append_nil] at hrs
  refine ⟨es ++ rs.map .ok, ?_⟩
  rw [List.length_append, hp.render_length]
  exact (hw.append (le_refl _) _).trans hrs

/-- The records `ds` are read before some offset of the file. -/
def Reads (b : Bytes) (ds : List Bytes) : Prop :=
  ∃ es off, Walk b 0 es off ∧ off ≤ b.length ∧ ds.Sublist (assemble none es)

theorem Reads.append {b : Bytes} {ds : List Bytes} (h : Reads b ds) (x : Bytes) :
    Reads (b ++ x) ds := by
  obtain ⟨es, off, hw, hle, hsub⟩ := h
  exact ⟨es, off, hw.append hle x, by rw [List.length_append]; omega, hsub⟩

/-- A record written in step behind a clean end is read as well. -/
theorem Reads.record {b : Bytes} {ds : List Bytes} (h : Reads b ds) (hc : Clean b) (d : Bytes) :
    Reads (b ++ LogWriter.recordBytes b.length d) (ds ++ [d]) := by
  obtain ⟨es, off, hw, hle, hsub⟩ := h
  obtain ⟨fs, hf⟩ := hc.walk
  obtain ⟨gs, rfl, -⟩ := hw.linear hf hle
  have hp := placed_fragments b.length d true
  have hnew := walk_render hp rfl []
  rw [List.append_nil] at hnew
  refine ⟨_, _, (hf.append (le_refl _) _).trans hnew, ?_, ?_⟩
  · rw [List.length_append, LogWriter.recordBytes, hp.render_length]
  · have hd := assemble_fragments b.length d true (carryAfter none (es ++ gs)) []
      (Or.inl ⟨rfl, rfl⟩) []
    rw [List.append_nil, List.nil_append] at hd
    rw [assemble_append, hd, assemble_append]
    exact (hsub.trans (List.sublist_append_left _ _)).append (List.Sublist.refl [d])

theorem Reads.sublist_readLog {b : Bytes} {ds : List Bytes} (h : Reads b ds) :
    ds.Sublist (readLog b).1 := by
  obtain ⟨es, off, hw, hle, hsub⟩ := h
  obtain ⟨fs, hs⟩ := exists_scan b
  rw [readLog_of_scan hs]
  obtain ⟨last, hf, hend⟩ := hs
  have hle' : off ≤ last := by
    by_contra hlt
    obtain ⟨gs, -, hg⟩ := hf.linear hw (by omega)
    cases hg with
    | refl => exact hlt (le_refl _)
    | step hn _ => rw [hend] at hn; cases hn
  obtain ⟨gs, rfl, -⟩ := hw.linear hf hle'
  rw [assemble_append]
  exact hsub.trans (List.sublist_append_left _ _)

/-! ### Main results -/

/-- A state from which a call that completes its writes is read back: `block_offset_` is the
position of the end of the file in its block, and the file ends with complete records. -/
def Ready (w : LogWriter) (d : FaultyDisk) : Prop :=
  w.InStep (d.files.get w.file).length ∧ Clean (d.files.get w.file)

/-- In the run over `ds`, each call none of whose writes is short starts in a ready state. -/
def AllReady (w : LogWriter) (d : FaultyDisk) : List Bytes → Prop
  | [] => True
  | r :: rs =>
      match (w.addRecord r).run faulty d with
      | .done (_, w') d' => (d'.shorts = d.shorts → Ready w d) ∧ AllReady w' d' rs
      | _ => True

theorem addEach_reads {w : LogWriter} {d : FaultyDisk} {ds : List Bytes} (hall : AllReady w d ds)
    {before : List Bytes} (hb : Reads (d.files.get w.file) before) :
    ∃ rs w' d', (w.addEach ds).run faulty d = .done (rs, w') d' ∧
      Reads (d'.files.get w.file) (before ++ acknowledged rs) := by
  induction ds generalizing w d before with
  | nil => exact ⟨[], w, d, rfl, by simpa [acknowledged] using hb⟩
  | cons r ds ih =>
      obtain ⟨⟨s, w₁⟩, d₁, hrun, hfile, ⟨x, hx⟩, hshort⟩ :=
        Prog.run_of_wp faulty_ok_isSome (LogWriter.addFragments_faulty_wp w r true d)
      simp only at hfile hx hshort
      change (w.addRecord r).run faulty d = _ at hrun
      rw [AllReady, hrun] at hall
      obtain ⟨hready, hall⟩ := hall
      have hnext : Reads (d₁.files.get w₁.file) (before ++ acknowledged [(r, s)]) := by
        rw [hfile]
        cases hs : s.ok with
        | false =>
            rw [hx]
            simpa [acknowledged, hs] using hb.append x
        | true =>
            obtain ⟨hstep, hclean⟩ := hready (hshort hs)
            have hdone := (run_of_no_short hrun).2 (hshort hs)
            have hspec : (w.addRecord r).wp (disk unbounded) (fun _ fs' => fs'.get w.file =
                d.files.get w.file ++ LogWriter.recordBytes (d.files.get w.file).length r)
                (fun _ => True) d.files :=
              LogWriter.addRecord_wp hstep trivial (fun _ _ => trivial)
                (fun _ _ _ => FileSystem.get_append _ _ _)
            rw [Prog.wp_run hspec hdone]
            simpa [acknowledged, hs] using hb.record hclean r
      obtain ⟨rs, w₂, d₂, hrun₂, hreads⟩ := ih hall hnext
      refine ⟨(r, s) :: rs, w₂, d₂, LogWriter.run_addEach_cons hrun hrun₂, ?_⟩
      · rw [hfile, List.append_assoc] at hreads
        have hcons : acknowledged ((r, s) :: rs) = acknowledged [(r, s)] ++ acknowledged rs := by
          cases hs : s.ok <;> simp [acknowledged, hs]
        rwa [hcons]

/-- **Acknowledged records are read back** in every run whose completed calls start in a ready
state. -/
theorem addEach_reads_back (file : FILE) (fs : FileSystem) (limit : ℕ → ℕ) (ds : List Bytes)
    (hall : AllReady (LogWriter.new file 0) ⟨fs.insert file [], limit, 0⟩ ds) :
    ∃ rs w d, ((LogWriter.new file 0).addEach ds).run faulty ⟨fs.insert file [], limit, 0⟩ =
        .done (rs, w) d ∧
      (acknowledged rs).Sublist (readLog (d.files.get file)).1 := by
  have h0 : Reads (FileSystem.get (fs.insert file []) file) [] := by
    rw [FileSystem.get_insert]
    exact ⟨[], 0, .refl 0, le_refl _, List.Sublist.refl []⟩
  obtain ⟨rs, w, d, hrun, hreads⟩ := addEach_reads hall h0
  exact ⟨rs, w, d, hrun, hreads.sublist_readLog⟩

/-! ### A lost record -/

theorem run_fwrite_full {file data : Bytes} {k : ℕ → FileProg α} {d : FaultyDisk}
    (h : data.length ≤ d.limit 0) :
    (fwrite file data >>= k).run faulty d = (k data.length).run faulty
      ⟨d.files.append file data, fun i => d.limit (i + 1), d.shorts⟩ := by
  have hn : min (d.limit 0) data.length = data.length := by omega
  refine (Prog.run_call faulty (o := FileOp.fwrite file data) (k := k) rfl).trans ?_
  rw [hn, List.take_length, if_neg (lt_irrefl _)]

theorem run_fwrite_none {file data : Bytes} {k : ℕ → FileProg α} {d : FaultyDisk}
    (h : d.limit 0 = 0) (hne : 0 < data.length) :
    (fwrite file data >>= k).run faulty d = (k 0).run faulty
      ⟨d.files.append file [], fun i => d.limit (i + 1), d.shorts + 1⟩ := by
  refine (Prog.run_call faulty (o := FileOp.fwrite file data) (k := k) rfl).trans ?_
  rw [h, Nat.zero_min, List.take_zero, if_pos hne]

namespace LogWriter

/-- The header goes to the file, and nothing of the payload. -/
theorem addRecord_header_only {w : LogWriter} {data : Bytes} {d : FaultyDisk}
    (hfit : w.block_offset + kHeaderSize + data.length ≤ kBlockSize) (hne : 0 < data.length)
    (h0 : kHeaderSize ≤ d.limit 0) (h1 : d.limit 1 = 0) :
    ∃ msg d', (w.addRecord data).run faulty d = .done (Status.ioError msg, w) d' ∧
      d'.files.get w.file = d.files.get w.file ++ recordHeader .kFullType data ∧
      d'.limit = (fun i => d.limit (i + 2)) ∧ d'.shorts = d.shorts + 1 := by
  refine ⟨ascii "write log record failed",
    ⟨(d.files.append w.file (recordHeader .kFullType data)).append w.file [],
      fun i => d.limit (i + 2), d.shorts + 1⟩, ?_, by simp, rfl, rfl⟩
  rw [addRecord_of_fits hfit, emitPhysicalRecord_bind,
    run_fwrite_full (by rwa [recordHeader_length]), recordHeader_length, if_neg (by simp),
    if_pos hne, run_fwrite_none h1 hne, if_pos hne.ne]
  rfl

/-- A record without payload is a header. -/
theorem addRecord_nil {w : LogWriter} {d : FaultyDisk}
    (hfit : w.block_offset + kHeaderSize ≤ kBlockSize) (h0 : kHeaderSize ≤ d.limit 0) :
    ∃ w' d', (w.addRecord []).run faulty d = .done (Status.OK, w') d' ∧ w'.file = w.file ∧
      w'.block_offset = w.block_offset + kHeaderSize ∧
      d'.files.get w.file = d.files.get w.file ++ recordHeader .kFullType [] ∧
      d'.limit = (fun i => d.limit (i + 1)) ∧ d'.shorts = d.shorts := by
  refine ⟨w.advance 0 hfit, ⟨d.files.append w.file (recordHeader .kFullType []),
    fun i => d.limit (i + 1), d.shorts⟩, ?_, rfl, rfl, by simp, rfl, rfl⟩
  rw [@addRecord_of_fits w [] hfit, emitPhysicalRecord_bind,
    run_fwrite_full (by rwa [recordHeader_length]), recordHeader_length, if_neg (by simp),
    if_neg (by simp)]
  rfl

end LogWriter

/-- Only the `n`-th write is short. -/
def shortAt (n : ℕ) : ℕ → ℕ := fun i => if i = n then 0 else kHeaderSize

theorem clean_nil : Clean [] := ⟨[], [], rfl, .nil 0, rfl⟩

/-- A run with a short write whose completed call starts in a ready state. -/
theorem addEach_reads_back_short_last :
    ∃ rs w d, ((LogWriter.new [] 0).addEach [[], List.replicate 8 0]).run faulty
        ⟨AList.insert [] [] ∅, shortAt 2, 0⟩ = .done (rs, w) d ∧
      (acknowledged rs).Sublist (readLog (d.files.get [])).1 := by
  refine addEach_reads_back [] ∅ (shortAt 2) [[], List.replicate 8 0] ?_
  obtain ⟨w₁, d₁, hrun₁, hfile, hoff, -, hlim, -⟩ :=
    LogWriter.addRecord_nil (w := LogWriter.new [] 0)
      (d := ⟨AList.insert [] [] ∅, shortAt 2, 0⟩) (by decide) (by decide)
  obtain ⟨msg, d₂, hrun₂, -, -, hshorts⟩ :=
    @LogWriter.addRecord_header_only w₁ (List.replicate 8 0) d₁
      (by rw [hoff]; decide) (by decide) (by rw [hlim]; decide) (by rw [hlim]; decide)
  rw [AllReady, hrun₁]
  refine ⟨fun _ => ⟨rfl, ?_⟩, ?_⟩
  · exact (FileSystem.get_insert ∅ [] []).symm ▸ clean_nil
  · rw [AllReady, hrun₂]
    exact ⟨fun h => absurd h (by omega), trivial⟩

/-- **A short write loses a later record.**  The first call writes its header and nothing of its
payload; the record of the second call, which returns OK, is not read back. -/
theorem short_write_loses_record :
    ¬ ∀ (file : FILE) (fs : FileSystem) (limit : ℕ → ℕ) (ds : List Bytes) rs w d,
      ((LogWriter.new file 0).addEach ds).run faulty ⟨fs.insert file [], limit, 0⟩ =
        .done (rs, w) d → (acknowledged rs).Sublist (readLog (d.files.get file)).1 := by
  intro hclaim
  obtain ⟨data, hlen⟩ : ∃ data : Bytes, data.length = 8 := ⟨List.replicate 8 0, rfl⟩
  have hw : (LogWriter.new [] 0).block_offset = 0 := rfl
  obtain ⟨msg, d₁, hrun₁, hget₁, hlim₁, -⟩ :=
    @LogWriter.addRecord_header_only (LogWriter.new [] 0) data
      ⟨AList.insert [] [] ∅, shortAt 1, 0⟩
      (by rw [hw, hlen]; decide) (by rw [hlen]; decide) (by decide) (by decide)
  obtain ⟨w₂, d₂, hrun₂, -, -, hget₂, -, -⟩ :=
    LogWriter.addRecord_nil (w := LogWriter.new [] 0) (d := d₁) (by rw [hw]; decide)
      (by rw [hlim₁]; decide)
  have hsub := hclaim _ _ _ _ _ _ _
    (LogWriter.run_addEach_cons hrun₁ (LogWriter.run_addEach_cons hrun₂ LogWriter.run_addEach_nil))
  -- the length field of the first header reaches behind the end of the file
  have hfile : d₂.files.get [] =
      recordHeader .kFullType data ++ recordHeader .kFullType [] := hget₂.trans (by
    rw [show (LogWriter.new [] 0).file = [] from rfl] at hget₁
    rw [show (LogWriter.new [] 0).file = [] from rfl, hget₁, FileSystem.get_insert, List.nil_append])
  have hend : next (d₂.files.get []) 0 = none := by
    have hend : blockEnd 0 = 32768 := rfl
    have hh := kHeaderSize_eq
    unfold next
    rw [hfile, List.drop_zero, headerLen_recordHeader (by omega)]
    simp only [List.length_append, recordHeader_length]
    rw [if_neg (by omega), if_pos (by omega), if_pos (by omega)]
  rw [readLog_of_scan ⟨0, .refl 0, hend⟩] at hsub
  simp [acknowledged, assemble] at hsub

end MiniLevelDB
