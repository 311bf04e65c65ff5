import MiniLevelDB.Recovery

/-! # Calls return

A memtable is flushed when a write has filled it, but `Open` replays a log of any size: a write that a crash cuts
off between the log and the flush comes back with the next `Open`.  So the memtable stays below its limit but for
the writes cut off in a row (`memory_bounded`), and as long as these are not too many, every call returns OK
(`calls_return`). -/

namespace MiniLevelDB

open Effect
open LogWriter (recordBytes)

/-- How many writes were cut off by crashes since the last one that returned. -/
def cutOffInARow (made : List (Call × Option Status)) : ℕ :=
  made.foldl (fun n c => match c with
    | (.perform _, none) => n + 1
    | (.perform _, some _) => 0
    | _ => n) 0

/-- More than a short write takes in the memtable. -/
def maxFootprint : ℕ := 2 ^ 31 + 136

/-- More than the memtable takes after so many writes that were cut off. -/
def memoryLimit (n : ℕ) : ℕ := kMaxMemTableBytes + n * maxFootprint

theorem memoryLimit_succ (n : ℕ) : memoryLimit (n + 1) = memoryLimit n + maxFootprint := by
  rw [memoryLimit, memoryLimit, Nat.succ_mul, Nat.add_assoc]

theorem memoryLimit_mono {m n : ℕ} (h : m ≤ n) : memoryLimit m ≤ memoryLimit n :=
  Nat.add_le_add_left (Nat.mul_le_mul_right _ h) _

section

variable {made : List (Call × Option Status)} {op : WriteOp}

@[simp] theorem cutOffInARow_crashed : cutOffInARow (made ++ [(.perform op, none)]) = cutOffInARow made + 1 := by
  rw [cutOffInARow, List.foldl_append]
  rfl

@[simp] theorem cutOffInARow_returned (s : Status) : cutOffInARow (made ++ [(.perform op, some s)]) = 0 := by
  rw [cutOffInARow, List.foldl_append]
  rfl

theorem cutOffInARow_other {call : Call} (s : Option Status) (h : ∀ op, call ≠ .perform op) :
    cutOffInARow (made ++ [(call, s)]) = cutOffInARow made := by
  rw [cutOffInARow, List.foldl_append]
  cases call with
  | perform op => exact absurd rfl (h op)
  | openDB => rfl
  | flush => rfl
  | close => rfl

end

/-! ### The memory of the layers -/

/-- The memory a layer takes in a memtable. -/
def usage (calls : List (ℕ × WriteOp)) : ℕ := (memOf calls).approximateMemoryUsage

/-- The memtable is below the limit of the writes cut off in a row; and each table is below that of one write
more, counted where it was made. -/
structure Bounded (L : Layers) (made : List (Call × Option Status)) : Prop where
  current : usage L.current < memoryLimit (cutOffInARow made)
  tables : ∀ calls ∈ L.tables, ∃ made', made' <+: made ∧ usage calls < memoryLimit (cutOffInARow made' + 1)

theorem usage_nil_lt (n : ℕ) : usage [] < memoryLimit n :=
  (by decide : usage [] < kMaxMemTableBytes).trans_le (Nat.le_add_right _ _)

theorem usage_write {L : Layers} {op : WriteOp} (h : op.Short) (seq : ℕ) :
    usage (L.write seq op).current < usage L.current + maxFootprint := by
  obtain ⟨hkey, hvalue⟩ := h
  rw [usage, usage, Layers.write, memoryUsage_concat, callEntry_footprint, maxFootprint]
  dsimp only
  omega

theorem bounded_start : Bounded Layers.empty [] := ⟨usage_nil_lt 0, fun _ h => absurd h List.not_mem_nil⟩

/-- Layers with the same tables, or with the memtable among them. -/
theorem Bounded.of_tables {L L' : Layers} {made : List (Call × Option Status)} {c : Call × Option Status}
    {calls : List (ℕ × WriteOp)} (h : Bounded L made)
    (hcurrent : usage L'.current < memoryLimit (cutOffInARow (made ++ [c])))
    (hcalls : usage calls < memoryLimit (cutOffInARow made + 1))
    (htables : L'.tables = L.tables ∨ L'.tables = L.tables ++ [calls]) : Bounded L' (made ++ [c]) := by
  refine ⟨hcurrent, fun calls' hcalls' => ?_⟩
  have hold : calls' ∈ L.tables → ∃ made', made' <+: made ++ [c] ∧
      usage calls' < memoryLimit (cutOffInARow made' + 1) := by
    intro hmem
    obtain ⟨made', hprefix, hlt⟩ := h.tables calls' hmem
    exact ⟨made', hprefix.trans (List.prefix_append _ _), hlt⟩
  rcases htables with heq | heq
  · rw [heq] at hcalls'
    exact hold hcalls'
  · rw [heq] at hcalls'
    rcases List.mem_append.mp hcalls' with hcalls' | hcalls'
    · exact hold hcalls'
    · obtain rfl := List.mem_singleton.mp hcalls'
      exact ⟨made, List.prefix_append _ _, hcalls⟩

/-- A flush, wherever it was cut off. -/
theorem Bounded.flushes {L L₁ L' : Layers} {made : List (Call × Option Status)} {c : Call × Option Status}
    (h : Bounded L made) (hL : L₁.Flushes L') (htables : L₁.tables = L.tables)
    (hcalls : usage L₁.current < memoryLimit (cutOffInARow made + 1))
    (hcurrent : usage L₁.current < memoryLimit (cutOffInARow (made ++ [c]))) : Bounded L' (made ++ [c]) := by
  cases hL with
  | before => exact h.of_tables hcurrent hcalls (Or.inl htables)
  | tabled =>
      refine h.of_tables hcurrent hcalls (Or.inr ?_)
      rw [Layers.tabled, htables]
  | flushed =>
      refine h.of_tables (usage_nil_lt _) hcalls (Or.inr ?_)
      rw [Layers.flushed, htables]

/-- **A step** keeps the memory bounded. -/
theorem bounded_step {dbname : Bytes} {w w' : World} {l' : List FileEntry} {L L' : Layers} {call : Call}
    {s : Option Status} {made : List (Call × Option Status)} (hcall : call.Short)
    (hholds : Holds dbname w' l' L') (hadvances : Advances L w call s L' w'.db) (h : Bounded L made) :
    Bounded L' (made ++ [(call, s)]) := by
  obtain ⟨fs, open?⟩ := w
  obtain ⟨fs', open'⟩ := w'
  have hmore : usage L.current < memoryLimit (cutOffInARow made + 1) :=
    h.current.trans_le (memoryLimit_mono (Nat.le_succ _))
  have hwrite : ∀ op : WriteOp, op.Short → ∀ seq,
      usage (L.write seq op).current < memoryLimit (cutOffInARow made + 1) := by
    intro op hop seq
    rw [memoryLimit_succ]
    exact (usage_write hop seq).trans (Nat.add_lt_add_right h.current _)
  have hother : (∀ op, call ≠ .perform op) →
      usage L.current < memoryLimit (cutOffInARow (made ++ [(call, s)])) := fun hne => by
    rw [cutOffInARow_other s hne]
    exact h.current
  cases hadvances with
  | ended hturns =>
      cases hturns with
      | opened _ _ => exact h.flushes .before rfl hmore (hother fun _ => by simp)
      | @written db db' op _ hlt =>
          refine h.flushes .before rfl (hwrite op hcall _) ?_
          rw [cutOffInARow_returned, usage, ← (hholds.serving db' rfl).mem]
          exact hlt
      | @filled db db' op _ _ _ =>
          refine h.of_tables (usage_nil_lt _) (hwrite op hcall _) (Or.inr rfl)
      | flushed _ _ _ => exact h.flushes .flushed rfl hmore (hother fun _ => by simp)
      | unchanged _ => exact h.flushes .before rfl hmore (hother fun _ => by simp)
      | closed => exact h.flushes .before rfl hmore (hother fun _ => by simp)
  | crashed hmoves =>
      cases hmoves with
      | opening => exact h.flushes .before rfl hmore (hother fun _ => by simp)
      | lost =>
          refine h.flushes .before rfl hmore ?_
          rw [cutOffInARow_crashed]
          exact hmore
      | @written db op L' hL =>
          refine h.flushes hL rfl (hwrite op hcall _) ?_
          rw [cutOffInARow_crashed]
          exact hwrite op hcall _
      | flushing hL => exact h.flushes hL rfl hmore (hother fun _ => by simp)
      | closing => exact h.flushes .before rfl hmore (hother fun _ => by simp)

/-- **A run** keeps it so. -/
theorem reach_bounded {dbname : Bytes} {w : World} {made : List (Call × Option Status)}
    (h : Reach dbname (fun _ call => call.Short) w made) (hcount : updatesIn made < 2 ^ 62) :
    ∃ l L, Holds dbname w l L ∧ Numbered w l (2 + 2 * updatesIn made) ∧
      (∀ db, w.db = some db → db.last_seq ≤ updatesIn made) ∧ Bounded L made := by
  obtain ⟨hregular, _, _, hholds, hnumbered, hnumerous⟩ := reach_regular (fun _ _ hP => hP.fits) h hcount
  obtain ⟨l, L, hholds', hbounded⟩ := reach_holds (I := fun _ _ L made => Bounded L made)
    (fun _ _ hP => hP.1) (fun _ => bounded_start)
    (fun hP _ hholds hadvances hI => bounded_step hP.2 hholds hadvances hI) hregular
  obtain rfl := hholds.sound.rests.1.unique hholds'.sound.rests.1
  exact ⟨_, L, hholds', hnumbered, hnumerous.last_seq, hbounded⟩

/-- **The memory is bounded** in every run: what `Write` compares with its limit is below it, but for the writes
that were cut off in a row. -/
theorem memory_bounded {dbname : Bytes} {w : World} {made : List (Call × Option Status)} {db : DBImpl}
    (h : Reach dbname (fun _ call => call.Short) w made) (hcount : updatesIn made < 2 ^ 62) (hdb : w.db = some db) :
    db.mem.approximateMemoryUsage < kMaxMemTableBytes + cutOffInARow made * maxFootprint := by
  obtain ⟨l, L, hholds, -, -, hbounded⟩ := reach_bounded h hcount
  rw [(hholds.serving db hdb).mem]
  exact hbounded.current

/-- Opened behind a write that was cut off and is replayed. -/
theorem memory_bounded_resumed :
    ∃ (fs : FileSystem) (db : DBImpl),
      Reach (ascii "db") (fun _ call => call.Short) ⟨fs, some db⟩
          (cutOffCalls ++ [(.openDB, some Status.OK)]) ∧
        db.mem.table = [callEntry (2, .delete [1])] ∧
        cutOffInARow (cutOffCalls ++ [(.openDB, some Status.OK)]) = 1 ∧
        db.mem.approximateMemoryUsage <
          kMaxMemTableBytes + cutOffInARow (cutOffCalls ++ [(.openDB, some Status.OK)]) * maxFootprint := by
  obtain ⟨fs, db, l, hreach, hsteady, -⟩ := exists_resumed Dir.empty (admits_short (ascii "db"))
  refine ⟨fs, db, hreach, ?_, rfl, memory_bounded hreach (by decide) rfl⟩
  rw [(hsteady.holds.serving db rfl).mem]
  rfl

/-! ### Calls that return -/

theorem Turns.ok {L L' : Layers} {db db' : Option DBImpl} {call : Call} {s : Status} (h : Turns L db call s L' db') :
    s = Status.OK := by
  cases h <;> rfl

theorem memoryLimit_lt {n : ℕ} (h : n ≤ 2 ^ 8) : memoryLimit n < 2 ^ 40 :=
  (memoryLimit_mono h).trans_lt (by decide)

/-- Bounded layers are small, also with the next write. -/
theorem Bounded.smallWith {L : Layers} {made : List (Call × Option Status)} {db : Option DBImpl} {call : Call}
    (h : Bounded L made) (hrow : ∀ made', made' <+: made → cutOffInARow made' < 2 ^ 8) (hcall : call.Short) :
    SmallWith L db call := by
  have hlast := hrow made (List.prefix_refl made)
  have htables : ∀ calls ∈ L.tables, SmallCalls calls := by
    intro calls hcalls
    obtain ⟨made', hprefix, hlt⟩ := h.tables calls hcalls
    exact hlt.trans (memoryLimit_lt (hrow made' hprefix))
  have hnewest : ∀ {L' : Layers}, L'.tables = L.tables → SmallCalls L'.current → L'.Small := by
    intro L' heq hcurrent calls hcalls
    rcases Layers.mem_newestFirst.mp hcalls with rfl | hcalls
    · exact hcurrent
    · exact htables calls (heq ▸ hcalls)
  refine ⟨hnewest rfl (h.current.trans (memoryLimit_lt hlast.le)), ?_⟩
  rintro db₀ op - rfl
  have husage := (usage_write hcall (db₀.last_seq + 1)).trans (Nat.add_lt_add_right h.current _)
  rw [← memoryLimit_succ] at husage
  exact hnewest rfl (husage.trans (memoryLimit_lt hlast))

/-- The files have room for a short call. -/
theorem Holds.hasRoom_of_lt {dbname : Bytes} {w : World} {l : List FileEntry} {L : Layers} {call : Call}
    (h : Holds dbname w l L) (hfiles : ∀ b ∈ logContents l, b.length < 2 ^ 62) (hcall : call.Short)
    (hrep : Representable w call) (hsmall : SmallWith L w.db call) : HasRoom l w.db call := by
  obtain ⟨fs, open?⟩ := w
  cases open? with
  | none => trivial
  | some db =>
      cases call with
      | openDB => trivial
      | perform op =>
          have hseq := hrep.2 db rfl
          constructor
          · intro b hb
            have hlen := hfiles b (mem_logContents hb rfl)
            have hrecord := recordBytes_recordOf_le b.length (db.last_seq + 1, op)
            obtain ⟨hkey, hvalue⟩ := hcall
            rw [callEntry_footprint] at hrecord
            rw [DBImpl.batchOf_rep op hseq]
            dsimp only at hrecord
            omega
          · rw [(h.serving db rfl).memAfter hrep.1 hseq]
            exact (hsmall.2 db op rfl rfl).current.table_lt
      | flush =>
          change (tableBytes db.mem.table).length < 2 ^ 63
          rw [(h.serving db rfl).mem]
          exact hsmall.1.current.table_lt
      | close => trivial

/-- **Calls return.**  After every run, with crashes at any moment but never `2 ^ 8` writes in a row cut off by
them, every call returns OK, if the log is not as large as `2 ^ 62` bytes. -/
theorem calls_return {dbname : Bytes} {w : World} {made : List (Call × Option Status)} {call : Call}
    {p : FileProg (Status × Option DBImpl)} (h : Reach dbname (fun _ call => call.Short) w made)
    (hcount : updatesIn made < 2 ^ 62) (hrow : ∀ made', made' <+: made → cutOffInARow made' < 2 ^ 8)
    (hfiles : ∀ l, Dir dbname w.fs l → ∀ b ∈ logContents l, b.length < 2 ^ 62) (hcall : call.Short)
    (hp : call.program dbname w.db = some p) :
    ∃ db' fs', p.run (disk offsetLimit) w.fs = .done (Status.OK, db') fs' := by
  obtain ⟨l, L, hholds, hnumbered, hseq, hbounded⟩ := reach_bounded h hcount
  have hroom : LeavesRoom dbname w := hnumbered.leavesRoom hholds.sound.rests.1 (by omega)
  have hrep : Representable w call := by
    cases call with
    | perform op =>
        refine ⟨hcall.fits, fun db hdb => ?_⟩
        have := hseq db hdb
        omega
    | openDB => trivial
    | flush => trivial
    | close => trivial
  have hsmall : SmallWith L w.db call := hbounded.smallWith hrow hcall
  obtain ⟨s, db', fs', hrun, l', hdir', hends⟩ := call_done hholds.sound.rests hroom hp
    (hholds.not_faults hrep hsmall) (hholds.hasRoom_of_lt (hfiles l hholds.sound.rests.1) hcall hrep hsmall)
  obtain ⟨L', hturns, -⟩ := ends_holds hholds hroom hrep hdir' hends
  obtain rfl : s = Status.OK := hturns.ok
  exact ⟨db', fs', hrun⟩

/-- Opening behind a flush and a write that was cut off. -/
theorem calls_return_resumed :
    ∃ (fs : FileSystem) (l : List FileEntry) (p : FileProg (Status × Option DBImpl)) (db' : Option DBImpl)
      (fs' : FileSystem),
      Reach (ascii "db") (fun _ call => call.Short) ⟨fs, none⟩ cutOffCalls ∧ Dir (ascii "db") fs l ∧
        tableContents l ≠ [] ∧ logCalls l ≠ [] ∧ Call.openDB.program (ascii "db") none = some p ∧
        p.run (disk offsetLimit) fs = .done (Status.OK, db') fs' := by
  obtain ⟨fs, l, hreach, hsteady⟩ := exists_cutOff Dir.empty (admits_short (ascii "db"))
  have hp : Call.openDB.program (ascii "db") none = some _ := rfl
  have hcall : Call.openDB.Short := trivial
  have hrow : ∀ made', made' <+: cutOffCalls → cutOffInARow made' < 2 ^ 8 := by
    have hall : ∀ made' ∈ cutOffCalls.inits, cutOffInARow made' < 2 ^ 8 := by decide
    exact fun made' hprefix => hall made' ((List.mem_inits _ _).mpr hprefix)
  have hfiles : ∀ l', Dir (ascii "db") fs l' → ∀ b ∈ logContents l', b.length < 2 ^ 62 := by
    intro l' hdir' b hb
    obtain rfl := hsteady.holds.sound.rests.1.unique hdir'
    have husage : (memOf twoLayers.current).approximateMemoryUsage < 2 ^ 40 := by decide
    have hlen := hsteady.compact b hb
    omega
  obtain ⟨db', fs', hrun⟩ := calls_return hreach (by decide) hrow hfiles hcall hp
  refine ⟨fs, l, _, db', fs', hreach, hsteady.holds.sound.rests.1, ?_, ?_, hp, hrun⟩
  · rw [hsteady.holds.stores.tables]
    exact List.cons_ne_nil _ _
  · rw [ne_eq, hsteady.holds.logCalls_eq_nil_iff]
    exact List.cons_ne_nil _ _

end MiniLevelDB
