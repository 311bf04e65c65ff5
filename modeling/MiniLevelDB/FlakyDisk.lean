import MiniLevelDB.Lib.Lockstep
import MiniLevelDB.Progress

/-! # A disk on which calls fail

On a `FlakyDisk` any call may fail.  What is written to a stream stays in its buffer until it is flushed or
closed; when that fails, or when a write fails, the first bytes of those pending have got out, and the rest is
lost.  A file that is opened for reading can be read up to the byte where `fread` fails, and a directory up to
the entry where `readdir` does.  Where `mkdir` fails and there is no directory, `opendir` fails as well.

A program that builds a table on such a disk does what it does on the disk where nothing fails, or returns
an error (`buildFrom_follows`); the one failure it does not see is that of the `fflush` at its end. -/

namespace MiniLevelDB

open Effect Posix

/-- A disk, the pending bytes of each stream, and what is to become of the calls: `outcome o j` is `none`
where the call `o` succeeds after `j` calls of it, and `some n` where it fails: then `n` of the bytes pending
get out, or `n` bytes can be read; of a directory none for `0`, and otherwise `n - 1` entries. -/
structure FlakyDisk where
  files : FileSystem
  buffer : FILE → Bytes
  outcome : FileOp → ℕ → Option ℕ

/-- What gets out of the bytes that are pending. -/
def written : Option ℕ → Bytes → Bytes
  | none, b => b
  | some n, b => b.take n

namespace FlakyDisk

/-- The disk when the call has been made once more. -/
def pass (d : FlakyDisk) (o : FileOp) : FlakyDisk :=
  { d with outcome := Function.update d.outcome o fun j => d.outcome o (j + 1) }

/-- The stream has `data` pending, and the buffer is emptied. -/
def drain (d : FlakyDisk) (file : FILE) (data : Bytes) (out : Option ℕ) : FlakyDisk :=
  { d with
    files := if written out data = [] then d.files else d.files.append file (written out data)
    buffer := Function.update d.buffer file [] }

/-- What a call does that has this outcome.  A write that fails reports fewer bytes than it was given. -/
def act (d : FlakyDisk) : (o : FileOp) → Option ℕ → Option (o.Res × FlakyDisk)
  | .fwrite file data, none =>
      if offsetLimit ((d.files.get file).length + (d.buffer file).length + data.length)
      then some (data.length, { d with buffer := Function.update d.buffer file (d.buffer file ++ data) })
      else none
  | .fwrite file data, some n =>
      let n := min n ((d.buffer file).length + data.length - 1)
      some (n - (d.buffer file).length, d.drain file (d.buffer file ++ data) (some n))
  | .fflush file, out => some ((), d.drain file (d.buffer file) out)
  | .fclose file, out => some (out.isNone, d.drain file (d.buffer file) out)
  | .ftell file, none => some (some ((d.files.get file).length + (d.buffer file).length), d)
  | .ftell _, some _ => some (none, d)
  | .listDir _, some 0 => some (none, d)
  | .listDir path, some (n + 1) => some (some ((d.files.entriesOf path).take n), d)
  | .snapshot file, some n => some (RFile.upTo n (d.files.get file), d)
  | .fopen _ _, some _ => some (false, d)
  | .ftruncate _ _, some _ => some (false, d)
  | .rename _ _, some _ => some (false, d)
  | .remove _, some _ => some (false, d)
  | o, _ => (FileSystem.ok unbounded d.files o).map fun r => (r.1, { d with files := r.2 })

/-- An operation on the disk. -/
def ok (d : FlakyDisk) (o : FileOp) : Option (o.Res × FlakyDisk) := (d.pass o).act o (d.outcome o 0)

@[simp] theorem pass_files (d : FlakyDisk) (o : FileOp) : (d.pass o).files = d.files := rfl
@[simp] theorem pass_buffer (d : FlakyDisk) (o : FileOp) : (d.pass o).buffer = d.buffer := rfl

theorem pass_outcome_ne (d : FlakyDisk) {o o' : FileOp} (h : o' ≠ o) :
    (d.pass o).outcome o' = d.outcome o' := Function.update_of_ne h _ _

theorem pass_outcome_self (d : FlakyDisk) (o : FileOp) (j : ℕ) :
    (d.pass o).outcome o j = d.outcome o (j + 1) := by
  have hself : (d.pass o).outcome o = fun j => d.outcome o (j + 1) := Function.update_self _ _ _
  rw [hself]

/-- The outcomes to come were to come before. -/
theorem exists_outcome_of_pass {d : FlakyDisk} {o o' : FileOp} {j n : ℕ}
    (h : (d.pass o).outcome o' j = some n) : ∃ i, d.outcome o' i = some n := by
  by_cases heq : o' = o
  · subst heq
    rw [pass_outcome_self] at h
    exact ⟨j + 1, h⟩
  · rw [pass_outcome_ne d heq] at h
    exact ⟨j, h⟩

theorem drain_buffer_self (d : FlakyDisk) (file : FILE) (data : Bytes) (out : Option ℕ) :
    (d.drain file data out).buffer file = [] := Function.update_self _ _ _

theorem drain_buffer_ne (d : FlakyDisk) {file f : FILE} (h : f ≠ file) (data : Bytes) (out : Option ℕ) :
    (d.drain file data out).buffer f = d.buffer f := Function.update_of_ne h _ _

theorem drain_get_self (d : FlakyDisk) (file : FILE) (data : Bytes) (out : Option ℕ) :
    (d.drain file data out).files.get file = d.files.get file ++ written out data := by
  rw [drain]
  dsimp only
  split_ifs with h
  · rw [h, List.append_nil]
  · rw [FileSystem.get_append]

theorem written_nil (out : Option ℕ) : written out [] = [] := by cases out <;> simp [written]

/-- A stream without pending bytes has nothing to lose. -/
theorem drain_nil {d : FlakyDisk} {file : FILE} (h : d.buffer file = []) (out : Option ℕ) :
    d.drain file (d.buffer file) out = d := by
  obtain ⟨files, buffer, outcome⟩ := d
  rw [drain, h, written_nil, if_pos rfl]
  congr
  rw [← h]
  exact Function.update_eq_self _ _

end FlakyDisk

/-- The disk as a device; no crash comes on it. -/
def flaky : Device FileOp FileOp.Res FlakyDisk where
  ok := FlakyDisk.ok
  torn := fun _ _ _ => False

theorem flaky_ok {d : FlakyDisk} {o : FileOp} {out : Option ℕ} (h : d.outcome o 0 = out) :
    flaky.ok d o = (d.pass o).act o out := by
  rw [← h]
  rfl

theorem flaky_ok_isSome (d : FlakyDisk) (o : FileOp) (h : NoAppend o) : (flaky.ok d o).isSome = true := by
  have hdisk := fun fs => unbounded_ok_isSome fs o
  rw [flaky_ok rfl]
  generalize d.outcome o 0 = out
  cases o with
  | fwrite file data => exact h.elim
  | fopen path mode => cases out <;> cases mode <;> rfl
  | listDir path =>
      cases out with
      | none => rfl
      | some n => cases n <;> rfl
  | _ => cases out <;> first | rfl | simpa [FlakyDisk.act] using hdisk _

/-- A file is read, or the reads fail before its end. -/
theorem flaky_snapshot (d : FlakyDisk) (file : FILE) :
    (∃ n, d.outcome (.snapshot file) 0 = some n ∧ n < (d.files.get file).length ∧
        flaky.ok d (.snapshot file) = some (RFile.upTo n (d.files.get file), d.pass (.snapshot file))) ∨
      flaky.ok d (.snapshot file) = some (RFile.ofBytes (d.files.get file), d.pass (.snapshot file)) := by
  cases hout : d.outcome (.snapshot file) 0 with
  | none =>
      rw [flaky_ok hout]
      exact Or.inr rfl
  | some n =>
      rw [flaky_ok hout, FlakyDisk.act, FlakyDisk.pass_files]
      by_cases hlt : n < (d.files.get file).length
      · exact Or.inl ⟨n, rfl, hlt, rfl⟩
      · rw [RFile.upTo_of_le (not_lt.mp hlt)]
        exact Or.inr rfl

/-! ### Building a table -/

/-- The calls of a stream whose results the builder looks at. -/
def Checked (file : FILE) : FileOp → Prop
  | .fwrite f _ => f = file
  | .ftell f => f = file
  | _ => False

/-- Everything written to the file is pending; the disk where nothing fails is `fs`. -/
structure Pending (file : FILE) (failure : Prop) (flushes : ℕ → Option ℕ) (d : FlakyDisk)
    (fs : FileSystem) : Prop where
  files : d.files.get file = []
  buffer : d.buffer file = fs.get file
  flushes : d.outcome (.fflush file) = flushes
  failure : ∀ o, Checked file o → ∀ j n, d.outcome o j = some n → failure

section

variable {file : FILE} {failure : Prop} {flushes : ℕ → Option ℕ} {d : FlakyDisk} {fs : FileSystem}
  {α : Type} {bad : α → Prop} {R : α → FlakyDisk → FileSystem → Prop}

theorem Pending.pass (h : Pending file failure flushes d fs) {o : FileOp} (ho : o ≠ .fflush file) :
    Pending file failure flushes (d.pass o) fs := by
  refine ⟨h.files, h.buffer, ?_, ?_⟩
  · rw [FlakyDisk.pass_outcome_ne d ho.symm]
    exact h.flushes
  · intro o' ho' j n hn
    obtain ⟨i, hi⟩ := FlakyDisk.exists_outcome_of_pass hn
    exact h.failure o' ho' i n hi

theorem Pending.append (h : Pending file failure flushes d fs) (data : Bytes) :
    Pending file failure flushes
      { d with buffer := Function.update d.buffer file (d.buffer file ++ data) } (fs.append file data) := by
  refine ⟨h.files, ?_, h.flushes, h.failure⟩
  have hself : Function.update d.buffer file (d.buffer file ++ data) file = d.buffer file ++ data :=
    Function.update_self _ _ _
  rw [FileSystem.get_append, ← h.buffer]
  exact hself

/-- The rule of a write whose result is looked at. -/
theorem follows_fwrite (h : Pending file failure flushes d fs) {data : Bytes} (hdata : data ≠ [])
    {k : ℕ → FileProg α}
    (hk : ∀ d', Pending file failure flushes d' (fs.append file data) →
      (k data.length).Follows flaky (disk offsetLimit) failure bad R d' (fs.append file data))
    (hfail : ∀ n, n ≠ data.length → ∃ a, k n = .ret a ∧ bad a) :
    (fwrite file data >>= k).Follows flaky (disk offsetLimit) failure bad R d fs := by
  have hpass := h.pass (o := .fwrite file data) (by simp)
  have hpos := List.length_pos_iff.mpr hdata
  cases hout : d.outcome (.fwrite file data) 0 with
  | none =>
      by_cases hroom : offsetLimit ((fs.get file).length + data.length) = true
      · refine Prog.follows_call ?_ (if_pos hroom) (hk _ (hpass.append data))
        rw [flaky_ok hout, FlakyDisk.act, hpass.files, hpass.buffer, List.length_nil, Nat.zero_add,
          if_pos hroom]
      · refine Prog.follows_stuck ?_ (if_neg hroom)
        rw [flaky_ok hout, FlakyDisk.act, hpass.files, hpass.buffer, List.length_nil, Nat.zero_add,
          if_neg hroom]
  | some n =>
      obtain ⟨a, ha, hbad⟩ := hfail (min n ((d.buffer file).length + data.length - 1) -
        (d.buffer file).length) (by omega)
      exact Prog.follows_failed (flaky_ok hout) (h.failure (.fwrite file data) rfl 0 n hout) ha hbad

/-- The rule of `ftell`. -/
theorem follows_ftell (h : Pending file failure flushes d fs) {k : Option ℕ → FileProg α}
    (hk : ∀ d', Pending file failure flushes d' fs →
      (k (some (fs.get file).length)).Follows flaky (disk offsetLimit) failure bad R d' fs)
    (hfail : ∃ a, k none = .ret a ∧ bad a) :
    (ftell file >>= k).Follows flaky (disk offsetLimit) failure bad R d fs := by
  have hpass := h.pass (o := .ftell file) (by simp)
  cases hout : d.outcome (.ftell file) 0 with
  | none =>
      refine Prog.follows_call ?_ rfl (hk _ hpass)
      rw [flaky_ok hout, FlakyDisk.act, hpass.files, hpass.buffer, List.length_nil, Nat.zero_add]
  | some n =>
      obtain ⟨a, ha, hbad⟩ := hfail
      exact Prog.follows_failed (flaky_ok hout) (h.failure (.ftell file) rfl 0 n hout) ha hbad

end

namespace TableBuilder

/-- What was written to the file has got out, as far as the `fflush` has let it. -/
structure Out (file : FILE) (flushes : ℕ → Option ℕ) (d : FlakyDisk) (fs : FileSystem) : Prop where
  files : d.files.get file = written (flushes 0) (fs.get file)
  buffer : d.buffer file = []

/-- An error of the builder. -/
def Bad (r : Status × TableBuilder) : Prop := r.1.ok = false

section

variable {file : FILE} {failure : Prop} {flushes : ℕ → Option ℕ} {d : FlakyDisk} {fs : FileSystem}
  {b : TableBuilder}

theorem finish_ne_nil (b : BlockBuilder) : b.finish ≠ [] := by
  rw [BlockBuilder.finish]
  exact List.append_ne_nil_of_right_ne_nil _ (List.ne_nil_of_length_pos (by rw [encodeFixed32_length]; decide))

theorem writeBlock_follows (h : Pending file failure flushes d fs) {contents : Bytes} (hne : contents ≠ []) :
    (writeBlock file contents).Follows flaky (disk offsetLimit) failure (fun r => r.1.ok = false)
      (fun _ => Pending file failure flushes) d fs := by
  refine follows_ftell h ?_ ⟨_, rfl, rfl⟩
  intro d₁ h₁
  refine follows_fwrite h₁ hne ?_ fun n hn => ⟨_, if_pos hn, rfl⟩
  intro d₂ h₂
  rw [if_neg (by simp)]
  have htrailer := blockTrailer_length contents
  refine follows_fwrite h₂ (List.ne_nil_of_length_pos (by rw [htrailer]; decide)) ?_ ?_
  · intro d₃ h₃
    rw [if_neg (by simp [htrailer])]
    exact Prog.follows_ret h₃
  · intro n hn
    rw [htrailer] at hn
    exact ⟨_, if_pos hn, rfl⟩

theorem flushDataBlock_follows (h : Pending file failure flushes d fs) (hb : b.file = file) :
    b.flushDataBlock.Follows flaky (disk offsetLimit) failure Bad
      (fun r d fs => r.2.file = file ∧ Pending file failure flushes d fs) d fs := by
  unfold flushDataBlock
  split
  · exact Prog.follows_ret ⟨hb, h⟩
  · dsimp only
    rw [hb]
    apply Prog.follows_bind
    · refine Prog.follows_mono (writeBlock_follows h (finish_ne_nil _)) ?_
      rintro ⟨s, handle⟩ d' fs' h'
      dsimp only
      split <;> exact Prog.follows_ret ⟨rfl, h'⟩
    · rintro ⟨s, handle⟩ hs
      exact ⟨_, if_pos (by simpa using hs), hs⟩

theorem add_follows (h : Pending file failure flushes d fs) (hb : b.file = file) (key value : Bytes) :
    (b.add key value).Follows flaky (disk offsetLimit) failure Bad
      (fun r d fs => r.2.file = file ∧ Pending file failure flushes d fs) d fs := by
  unfold add
  split
  · exact Prog.follows_ret ⟨hb, h⟩
  · dsimp only
    split
    · exact flushDataBlock_follows h hb
    · exact Prog.follows_ret ⟨hb, h⟩

theorem finish_follows (h : Pending file failure flushes d fs) (hb : b.file = file) :
    b.finish.Follows flaky (disk offsetLimit) failure Bad
      (fun r d fs => r.1.ok = true → Out file flushes d fs) d fs := by
  unfold finish
  split
  · exact Prog.follows_ret fun hok => by cases hok
  · apply Prog.follows_bind
    · refine Prog.follows_mono (flushDataBlock_follows h hb) ?_
      rintro ⟨s, b₁⟩ d₁ fs₁ ⟨hb₁, h₁⟩
      dsimp only at hb₁ ⊢
      by_cases hs : s.ok = true
      · rw [if_neg (by simp [hs]), hb₁]
        apply Prog.follows_bind
        · refine Prog.follows_mono (writeBlock_follows h₁ (finish_ne_nil _)) ?_
          rintro ⟨s₂, handle⟩ d₂ fs₂ h₂
          dsimp only
          by_cases hs₂ : s₂.ok = true
          · rw [if_neg (by simp [hs₂])]
            have hfooter := Footer.encode_length ⟨⟨0, 0⟩, handle⟩
            refine follows_fwrite h₂ (List.ne_nil_of_length_pos (by rw [hfooter]; decide)) ?_
              fun n hn => ⟨_, if_pos hn, rfl⟩
            intro d₃ h₃
            rw [if_neg (by simp)]
            -- the flush at the end is not looked at
            refine Prog.follows_call rfl rfl (Prog.follows_ret fun _ => ⟨?_, ?_⟩)
            · rw [FlakyDisk.drain_get_self, FlakyDisk.pass_files, FlakyDisk.pass_buffer, h₃.files, h₃.buffer,
                h₃.flushes, List.nil_append]
            · exact FlakyDisk.drain_buffer_self _ _ _ _
          · rw [Bool.not_eq_true] at hs₂
            rw [if_pos (by simp [hs₂])]
            exact Prog.follows_ret fun hok => by rw [hs₂] at hok; cases hok
        · rintro ⟨s₂, handle⟩ hs₂
          exact ⟨_, if_pos (by simpa using hs₂), hs₂⟩
      · rw [Bool.not_eq_true] at hs
        rw [if_pos (by simp [hs])]
        exact Prog.follows_ret fun hok => by rw [hs] at hok; cases hok
    · rintro ⟨s, b₁⟩ hs
      exact ⟨_, if_pos (by simpa [Bad] using hs), hs⟩

/-- **A table is built** as where nothing fails, or the builder returns an error. -/
theorem buildFrom_follows (h : Pending file failure flushes d fs) (hb : b.file = file) (es : List Entry) :
    (b.buildFrom es).Follows flaky (disk offsetLimit) failure Bad
      (fun r d fs => r.1.ok = true → Out file flushes d fs) d fs := by
  induction es generalizing b d fs with
  | nil => exact finish_follows h hb
  | cons e es ih =>
      apply Prog.follows_bind
      · refine Prog.follows_mono (add_follows h hb _ _) ?_
        rintro ⟨s, b₁⟩ d₁ fs₁ ⟨hb₁, h₁⟩
        dsimp only at hb₁ ⊢
        by_cases hs : s.ok = true
        · rw [if_neg (by simp [hs])]
          exact ih h₁ hb₁
        · rw [Bool.not_eq_true] at hs
          rw [if_pos (by simp [hs])]
          exact Prog.follows_ret fun hok => by rw [hs] at hok; cases hok
      · rintro ⟨s, b₁⟩ hs
        exact ⟨_, if_pos (by simpa [Bad] using hs), hs⟩

end

end TableBuilder

/-! ### Building a table in a directory -/

/-- The outcomes to come are among those of `g`. -/
def FlakyDisk.Among (d : FlakyDisk) (g : FileOp → ℕ → Option ℕ) : Prop :=
  ∀ o j, ∃ i, d.outcome o j = g o i

/-- The directory holds `l` and the file `f`, which is the only one that may have bytes pending. -/
structure Beside (dbname : Bytes) (l : List FileEntry) (f : FileInfo) (g : FileOp → ℕ → Option ℕ)
    (d : FlakyDisk) : Prop where
  dir : Dir dbname d.files (l ++ [(f, d.files.get (fileName dbname f))])
  buffer : ∀ s ≠ fileName dbname f, d.buffer s = []
  among : d.Among g

theorem FlakyDisk.Among.pass {d : FlakyDisk} {g : FileOp → ℕ → Option ℕ} (h : d.Among g) (o : FileOp) :
    (d.pass o).Among g := by
  intro o' j
  by_cases heq : o' = o
  · subst heq
    rw [FlakyDisk.pass_outcome_self]
    exact h o' (j + 1)
  · rw [FlakyDisk.pass_outcome_ne d heq]
    exact h o' j

theorem setContent_concat {f : FileInfo} {l : List FileEntry} (hnew : ∀ p ∈ l, p.1.number < f.number)
    (b b' : Bytes) : setContent f b' (l ++ [(f, b)]) = l ++ [(f, b')] := by
  rw [setContent, List.map_append, List.map_singleton, if_pos rfl]
  congr 1
  conv_rhs => rw [← List.map_id l]
  apply List.map_congr_left
  intro p hp
  have hne : p.1 ≠ f := fun heq => (hnew p hp).ne (congrArg FileInfo.number heq)
  rw [if_neg hne, id]

section

variable {dbname : Bytes} {l : List FileEntry} {f : FileInfo} {g : FileOp → ℕ → Option ℕ} {d : FlakyDisk}

theorem Beside.pass (h : Beside dbname l f g d) (o : FileOp) : Beside dbname l f g (d.pass o) :=
  ⟨h.dir, h.buffer, h.among.pass o⟩

theorem Beside.drain (h : Beside dbname l f g d) (hnew : ∀ p ∈ l, p.1.number < f.number) (data : Bytes)
    (out : Option ℕ) : Beside dbname l f g (d.drain (fileName dbname f) data out) := by
  refine ⟨?_, ?_, h.among⟩
  · rw [FlakyDisk.drain]
    dsimp only
    split_ifs with hnone
    · exact h.dir
    · have hset := h.dir.set (List.mem_append_right _ (List.mem_singleton.mpr rfl))
        (d.files.get (fileName dbname f) ++ written out data)
      rw [setContent_concat hnew] at hset
      rw [FileSystem.get_append]
      exact hset
  · intro s hs
    rw [FlakyDisk.drain_buffer_ne d hs]
    exact h.buffer s hs

/-- A call of the stream leaves the other files alone. -/
theorem Beside.step (hnew : ∀ p ∈ l, p.1.number < f.number) {o : FileOp} {r : o.Res} {d' : FlakyDisk}
    (ho : OnStream (fileName dbname f) o) (h : Beside dbname l f g d) (hok : flaky.ok d o = some (r, d')) :
    Beside dbname l f g d' := by
  have hpass := h.pass o
  rw [flaky_ok rfl] at hok
  generalize d.outcome o 0 = out at hok
  cases o with
  | fwrite s data =>
      obtain rfl : s = fileName dbname f := ho
      cases out with
      | none =>
          rw [FlakyDisk.act] at hok
          split_ifs at hok with hroom
          obtain ⟨-, rfl⟩ := Prod.mk.inj (Option.some.inj hok)
          refine ⟨hpass.dir, ?_, hpass.among⟩
          intro s hs
          dsimp only
          rw [Function.update_of_ne hs]
          exact h.buffer s hs
      | some n =>
          obtain ⟨-, rfl⟩ := Prod.mk.inj (Option.some.inj hok)
          exact hpass.drain hnew _ _
  | fflush s =>
      obtain rfl : s = fileName dbname f := ho
      obtain ⟨-, rfl⟩ := Prod.mk.inj (Option.some.inj hok)
      exact hpass.drain hnew _ _
  | fclose s =>
      obtain rfl : s = fileName dbname f := ho
      obtain ⟨-, rfl⟩ := Prod.mk.inj (Option.some.inj hok)
      exact hpass.drain hnew _ _
  | ftell s =>
      cases out <;>
      · obtain ⟨-, rfl⟩ := Prod.mk.inj (Option.some.inj hok)
        exact hpass
  | _ => exact ho.elim

/-- The stream of a table is closed. -/
theorem close_after {builder : TableBuilder} {α : Type} {E : Fault → Prop} {k : Unit → FileProg α}
    {Q : α → FlakyDisk → Prop} (h : Beside dbname l f g d) (hnew : ∀ p ∈ l, p.1.number < f.number)
    (hfile : builder.file = fileName dbname f)
    (hk : ∀ d', Beside dbname l f g d' → d'.buffer = (fun _ => []) →
      (d.buffer (fileName dbname f) = [] → d'.files = d.files) → (k ()).After flaky E Q d') :
    (builder.close >>= k).After flaky E Q d := by
  unfold TableBuilder.close
  rw [hfile]
  refine Prog.after_op fun r d₁ h₁ => ?_
  refine Prog.after_op fun closed d₂ h₂ => ?_
  have hbeside := (h.step hnew (onStream_fflush _) h₁).step hnew (onStream_fclose _) h₂
  rw [flaky_ok rfl] at h₁ h₂
  obtain ⟨-, rfl⟩ := Prod.mk.inj (Option.some.inj h₁)
  obtain ⟨-, rfl⟩ := Prod.mk.inj (Option.some.inj h₂)
  refine hk _ hbeside ?_ ?_
  · funext s
    by_cases hs : s = fileName dbname f
    · subst hs
      exact FlakyDisk.drain_buffer_self _ _ _ _
    · exact hbeside.buffer s hs
  · intro hempty
    have hfirst := FlakyDisk.drain_nil (d := d.pass (.fflush (fileName dbname f))) hempty
      (d.outcome (.fflush (fileName dbname f)) 0)
    rw [hfirst]
    have hsecond := FlakyDisk.drain_nil
      (d := (d.pass (.fflush (fileName dbname f))).pass (.fclose (fileName dbname f))) hempty
    rw [hsecond]
    rfl

/-- The builder has returned an error, and a call it looks at has failed; or the table has got out, as far as
the `fflush` has let it. -/
def BuildEnds (path : Bytes) (es : List Entry) (d : FlakyDisk) (s : Status) (d' : FlakyDisk) : Prop :=
  (s.ok = false ∧ ∃ o, Checked path o ∧ ∃ j n, d.outcome o j = some n) ∨
    (s = Status.OK ∧ (tableBytes es).length < 2 ^ 63 ∧ d'.buffer path = [] ∧
      d'.files.get path = written (d.outcome (.fflush path) 0) (tableBytes es))

/-- A table is written into a new file. -/
theorem build_after (es : List Entry) {E : Fault → Prop} (h : Beside dbname l f g d)
    (hnew : ∀ p ∈ l, p.1.number < f.number) (hget : d.files.get (fileName dbname f) = [])
    (hbuffer : d.buffer (fileName dbname f) = []) :
    ((TableBuilder.new (fileName dbname f)).buildFrom es).After flaky E (fun r d' =>
      r.2.file = fileName dbname f ∧ Beside dbname l f g d' ∧ BuildEnds (fileName dbname f) es d r.1 d') d := by
  have hpending : Pending (fileName dbname f)
      (∃ o, Checked (fileName dbname f) o ∧ ∃ j n, d.outcome o j = some n)
      (d.outcome (.fflush (fileName dbname f))) d (AList.insert (fileName dbname f) [] ∅) :=
    ⟨hget, by rw [hbuffer, FileSystem.get_insert], rfl, fun o ho j n hn => ⟨o, ho, j, n, hn⟩⟩
  have hfile : (TableBuilder.new (fileName dbname f)).file = fileName dbname f := rfl
  have hgives := TableBuilder.buildFrom_onStream hfile es
  have hwp : ((TableBuilder.new (fileName dbname f)).buildFrom es).wp (disk offsetLimit)
      (fun r fs => r.1 = Status.OK ∧ (tableBytes es).length < 2 ^ 63 ∧
        fs.get (fileName dbname f) = tableBytes es) (fun _ => True)
      (AList.insert (fileName dbname f) [] ∅) := by
    apply TableBuilder.buildFrom_new_wp (fun _ _ => trivial)
    exact fun b' _ _ hroom => ⟨rfl, offsetLimit_lt _ hroom, FileSystem.get_insert _ _ _⟩
  have hleft : ∀ r d', ((TableBuilder.new (fileName dbname f)).buildFrom es).run flaky d = .done r d' →
      r.2.file = fileName dbname f ∧ Beside dbname l f g d' := fun r d' hrun =>
    ⟨hgives.result hrun, hgives.only.preserves (fun _ _ _ _ => Beside.step hnew) h hrun⟩
  rw [Prog.After]
  rcases TableBuilder.buildFrom_follows hpending hfile es with ⟨hfailure, r, d', hrun, hbad⟩ | hrel
  · rw [hrun]
    obtain ⟨hr, hbeside⟩ := hleft r d' hrun
    exact ⟨hr, hbeside, Or.inl ⟨hbad, hfailure⟩⟩
  · -- the builder has done what it does on the disk where nothing fails
    cases hrun : ((TableBuilder.new (fileName dbname f)).buildFrom es).run flaky d with
    | stuck => trivial
    | fault e =>
        rw [hrun] at hrel
        generalize hdisk : ((TableBuilder.new (fileName dbname f)).buildFrom es).run (disk offsetLimit)
          (AList.insert (fileName dbname f) [] ∅) = x at hrel
        cases hrel with
        | fault _ => exact absurd hdisk (Prog.wp_not_fault hwp)
    | done r d' =>
        rw [hrun] at hrel
        generalize hdisk : ((TableBuilder.new (fileName dbname f)).buildFrom es).run (disk offsetLimit)
          (AList.insert (fileName dbname f) [] ∅) = x at hrel
        cases hrel with
        | done hout =>
            obtain ⟨hs, hlen, htable⟩ := Prog.wp_run hwp hdisk
            obtain ⟨hfiles, hempty⟩ := hout (by rw [hs]; rfl)
            obtain ⟨hr, hbeside⟩ := hleft r d' hrun
            rw [htable] at hfiles
            exact ⟨hr, hbeside, Or.inr ⟨hs, hlen, hempty, hfiles⟩⟩

end

/-! ### Calls between which nothing is pending -/

/-- Some call of the operation fails. -/
def Fails (g : FileOp → ℕ → Option ℕ) (o : FileOp) : Prop := ∃ j n, g o j = some n

/-- Some call of the operation succeeds. -/
def Succeeds (g : FileOp → ℕ → Option ℕ) (o : FileOp) : Prop := ∃ j, g o j = none

/-- The disk holds the files `fs`, and no stream has bytes pending. -/
structure Quiet (fs : FileSystem) (g : FileOp → ℕ → Option ℕ) (d : FlakyDisk) : Prop where
  files : d.files = fs
  buffer : d.buffer = fun _ => []
  among : d.Among g

section

variable {fs : FileSystem} {g : FileOp → ℕ → Option ℕ} {d : FlakyDisk}

theorem Quiet.start (fs : FileSystem) (g : FileOp → ℕ → Option ℕ) : Quiet fs g ⟨fs, fun _ => [], g⟩ :=
  ⟨rfl, rfl, fun _ j => ⟨j, rfl⟩⟩

theorem Quiet.pass (h : Quiet fs g d) (o : FileOp) : Quiet fs g (d.pass o) :=
  ⟨h.files, h.buffer, h.among.pass o⟩

theorem Quiet.drain (h : Quiet fs g d) (file : FILE) (out : Option ℕ) :
    d.drain file (d.buffer file) out = d := FlakyDisk.drain_nil (by rw [h.buffer]) out

theorem Quiet.fails (h : Quiet fs g d) {o : FileOp} {n : ℕ} (hout : d.outcome o 0 = some n) : Fails g o := by
  obtain ⟨i, hi⟩ := h.among o 0
  exact ⟨i, n, hi.symm.trans hout⟩

variable {α : Type} {E : Fault → Prop} {Q : α → FlakyDisk → Prop}

/-- The rule of a call that succeeds, as on the disk where nothing fails, or fails and changes nothing. -/
theorem quiet_call (h : Quiet fs g d) {o : FileOp} {k : o.Res → FileProg α} {r failed : o.Res}
    {fs' : FileSystem} (hfailed : ∀ (d : FlakyDisk) n, d.act o (some n) = some (failed, d))
    (hact : ∀ d : FlakyDisk, d.act o none =
      (FileSystem.ok unbounded d.files o).map fun r => (r.1, { d with files := r.2 }))
    (hok : FileSystem.ok unbounded fs o = some (r, fs'))
    (hk : ∀ d', Quiet fs' g d' → (∀ o' ≠ o, d'.outcome o' = d.outcome o') → Succeeds g o →
      (k r).After flaky E Q d')
    (hfail : ∀ d', Quiet fs g d' → Fails g o → (k failed).After flaky E Q d') :
    (Prog.op o >>= k).After flaky E Q d := by
  refine Prog.after_op fun r' d' hstep => ?_
  cases hout : d.outcome o 0 with
  | none =>
      rw [flaky_ok hout, hact, FlakyDisk.pass_files, h.files, hok] at hstep
      obtain ⟨rfl, rfl⟩ := Prod.mk.inj (Option.some.inj hstep)
      obtain ⟨i, hi⟩ := h.among o 0
      exact hk _ ⟨rfl, h.buffer, h.among.pass o⟩ (fun o' ho' => FlakyDisk.pass_outcome_ne d ho')
        ⟨i, hi.symm.trans hout⟩
  | some n =>
      rw [flaky_ok hout, hfailed] at hstep
      obtain ⟨rfl, rfl⟩ := Prod.mk.inj (Option.some.inj hstep)
      exact hfail _ (h.pass o) (h.fails hout)

theorem quiet_fflush (h : Quiet fs g d) {file : FILE} {k : Unit → FileProg α}
    (hk : ∀ d', Quiet fs g d' → (k ()).After flaky E Q d') : (fflush file >>= k).After flaky E Q d := by
  refine Prog.after_op fun r d' hstep => ?_
  rw [flaky_ok rfl, FlakyDisk.act, (h.pass (.fflush file)).drain] at hstep
  obtain ⟨rfl, rfl⟩ := Prod.mk.inj (Option.some.inj hstep)
  exact hk _ (h.pass _)

theorem quiet_fclose (h : Quiet fs g d) {file : FILE} {k : Bool → FileProg α}
    (hk : ∀ d', Quiet fs g d' → Succeeds g (.fclose file) → (k true).After flaky E Q d')
    (hfail : ∀ d', Quiet fs g d' → Fails g (.fclose file) → (k false).After flaky E Q d') :
    (fclose file >>= k).After flaky E Q d := by
  have hpass := h.pass (.fclose file)
  refine Prog.after_op fun r d' hstep => ?_
  cases hout : d.outcome (.fclose file) 0 with
  | none =>
      rw [flaky_ok hout, FlakyDisk.act, hpass.drain] at hstep
      obtain ⟨rfl, rfl⟩ := Prod.mk.inj (Option.some.inj hstep)
      obtain ⟨i, hi⟩ := h.among (.fclose file) 0
      exact hk _ hpass ⟨i, hi.symm.trans hout⟩
  | some n =>
      rw [flaky_ok hout, FlakyDisk.act, hpass.drain] at hstep
      obtain ⟨rfl, rfl⟩ := Prod.mk.inj (Option.some.inj hstep)
      exact hfail _ hpass (h.fails hout)

/-- A table is opened, or the `fopen` or a read fails. -/
theorem openTable_after (h : Quiet fs g d) {fname : Bytes} (hmem : fname ∈ fs)
    {k : Except Status Table → FileProg α}
    (hfail : ∀ s d', s.ok = false → Quiet fs g d' → Fails g (.fopen fname .rb) ∨ Fails g (.snapshot fname) →
      (k (.error s)).After flaky E Q d')
    (hfault : ∀ f, Table.load (RFile.ofBytes (fs.get fname)) = .error f → E f)
    (herror : ∀ s d', Quiet fs g d' → Table.load (RFile.ofBytes (fs.get fname)) = .ok (.error s) →
      (k (.error s)).After flaky E Q d')
    (hok : ∀ t d', Quiet fs g d' → Table.load (RFile.ofBytes (fs.get fname)) = .ok (.ok t) →
      (k (.ok t)).After flaky E Q d') :
    (Table.openTable fname >>= k).After flaky E Q d := by
  apply Prog.after_bind
  unfold Table.openTable
  refine quiet_call h (fun _ _ => rfl) (fun _ => rfl) (rfl : _ = some (decide (fname ∈ fs), fs)) ?_ ?_
  · intro d₁ h₁ _ _
    rw [if_neg (by simp [hmem])]
    have h₂ := h₁.pass (.snapshot fname)
    refine Prog.after_op fun file d₂ hstep => ?_
    rcases flaky_snapshot d₁ fname with ⟨n, hout, hlt, hok'⟩ | hok'
    · rw [hok'] at hstep
      obtain ⟨rfl, rfl⟩ := Prod.mk.inj (Option.some.inj hstep)
      obtain ⟨s, hload, hs⟩ := Table.load_upTo hlt
      rw [hload]
      refine quiet_fclose h₂ ?_ ?_
      · exact fun d₃ h₃ _ => Prog.after_ret (hfail s d₃ hs h₃ (Or.inr (h₁.fails hout)))
      · exact fun d₃ h₃ _ => Prog.after_ret (hfail s d₃ hs h₃ (Or.inr (h₁.fails hout)))
    · rw [hok', h₁.files] at hstep
      obtain ⟨rfl, rfl⟩ := Prod.mk.inj (Option.some.inj hstep)
      cases hload : Table.load (RFile.ofBytes (fs.get fname)) with
      | error f => exact Prog.after_fault (hfault f hload)
      | ok r =>
          cases r with
          | error s =>
              refine quiet_fclose h₂ ?_ ?_
              · exact fun d₃ h₃ _ => Prog.after_ret (herror s d₃ h₃ hload)
              · exact fun d₃ h₃ _ => Prog.after_ret (herror s d₃ h₃ hload)
          | ok t => exact Prog.after_ret (hok t _ h₂ hload)
  · intro d₁ h₁ hfails
    exact Prog.after_ret (hfail _ d₁ rfl h₁ (Or.inl hfails))

end

end MiniLevelDB
