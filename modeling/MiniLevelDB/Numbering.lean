import MiniLevelDB.Sizes

/-! # Sequence numbers in every run

The number of a write is above those in the memtable and in the log.  It is above those in the tables as
long as no database was opened on tables with a log that holds nothing: `last_seq_` is made from the log
alone, and counts from zero again there. -/

namespace MiniLevelDB

open Effect

/-- All sequence numbers are at most `n`. -/
def Layers.Below (L : Layers) (n : ℕ) : Prop := ∀ calls ∈ L.newestFirst, ∀ c ∈ calls, c.1 ≤ n

/-- The sequence numbers of the layers are below those to come. -/
structure Counted (w : World) (L : Layers) : Prop where
  serving : ∀ db, w.db = some db → L.Below db.last_seq
  log : L.current ≠ [] → L.Below (greatest L.current)

/-- A log that is found empty when a database is opened is the only layer. -/
def Continues (dbname : Bytes) (w : World) (call : Call) : Prop :=
  call = .openDB → ∀ l, Dir dbname w.fs l → logCalls l = [] → tableContents l = []

theorem Layers.Below.mono {L : Layers} {n m : ℕ} (h : L.Below n) (hle : n ≤ m) : L.Below m :=
  fun calls hcalls c hc => (h calls hcalls c hc).trans hle

theorem Layers.Below.write {L : Layers} {n m seq : ℕ} (h : L.Below n) (hle : n ≤ m) (hseq : seq ≤ m)
    (op : WriteOp) : (L.write seq op).Below m := by
  intro calls hcalls c hc
  rcases mem_newestFirst.mp hcalls with rfl | hcalls
  · rcases List.mem_append.mp hc with hc | hc
    · exact (h _ (mem_newestFirst.mpr (Or.inl rfl)) c hc).trans hle
    · obtain rfl := List.mem_singleton.mp hc
      exact hseq
  · exact (h _ (mem_newestFirst.mpr (Or.inr hcalls)) c hc).trans hle

theorem Layers.Below.flushes {L L' : Layers} {n : ℕ} (h : L.Below n) (hL : L.Flushes L') : L'.Below n := by
  intro calls hcalls c hc
  rcases hL.subset hcalls with hcalls | rfl
  · exact h calls hcalls c hc
  · cases hc

/-- A written call has the greatest number. -/
theorem Layers.Below.greatest_write {L : Layers} {n : ℕ} (h : L.Below n) (op : WriteOp) :
    (L.write (n + 1) op).Below (greatest (L.write (n + 1) op).current) := by
  have hmem : (n + 1, op) ∈ (L.write (n + 1) op).current :=
    List.mem_append_right _ (List.mem_singleton.mpr rfl)
  intro calls hcalls c hc
  exact (h.write (Nat.le_succ n) le_rfl op calls hcalls c hc).trans (le_greatest hmem)

theorem Layers.Flushes.log {L L' : Layers} (hL : L.Flushes L')
    (h : L.current ≠ [] → L.Below (greatest L.current)) :
    L'.current ≠ [] → L'.Below (greatest L'.current) := by
  intro hne
  cases hL with
  | before => exact h hne
  | tabled => exact (h hne).flushes .tabled
  | flushed => exact absurd rfl hne

/-- Between the calls the log replays the calls of the newest layer. -/
theorem Holds.logCalls_eq_nil_iff {dbname : Bytes} {w : World} {l : List FileEntry} {L : Layers}
    (h : Holds dbname w l L) : logCalls l = [] ↔ L.current = [] := by
  have hcalls : ∀ b ∈ logContents l, DBImpl.callsOf b = L.current := by
    intro b hb
    obtain ⟨-, hcalls, -⟩ := (h.stores.log b hb).replay fun c hc => h.wellFormed.writable hc
    exact hcalls
  rw [logCalls, List.flatMap_eq_nil_iff]
  constructor
  · intro hnone
    cases hlogs : logContents l with
    | nil => exact h.stores.no_log hlogs
    | cons b bs =>
        have hb : b ∈ logContents l := hlogs ▸ List.mem_cons_self
        exact (hcalls b hb).symm.trans (hnone b hb)
  · intro hcurrent b hb
    exact (hcalls b hb).trans hcurrent

/-- Where the log holds nothing when a database is opened, there are no calls at all. -/
theorem Holds.below_greatest {dbname : Bytes} {w : World} {l : List FileEntry} {L : Layers}
    (h : Holds dbname w l L) (hlog : L.current ≠ [] → L.Below (greatest L.current))
    (hcontinues : Continues dbname w .openDB) : L.Below (greatest L.current) := by
  by_cases hcurrent : L.current = []
  · have htables : L.tables = [] := by
      have heq := h.stores.tables
      rw [hcontinues rfl l h.sound.rests.1 (h.logCalls_eq_nil_iff.mpr hcurrent)] at heq
      exact List.map_eq_nil_iff.mp heq.symm
    intro calls hmem c hc
    rcases Layers.mem_newestFirst.mp hmem with rfl | hmem
    · rw [hcurrent] at hc
      cases hc
    · rw [htables] at hmem
      cases hmem
  · exact hlog hcurrent

theorem counted_step {dbname : Bytes} {w w' : World} {l : List FileEntry} {L L' : Layers} {call : Call}
    {s : Option Status} (hcontinues : Continues dbname w call) (hholds : Holds dbname w l L)
    (hadvances : Advances L w call s L' w'.db) (h : Counted w L) : Counted w' L' := by
  obtain ⟨fs, open?⟩ := w
  obtain ⟨fs', open'⟩ := w'
  cases hadvances with
  | ended hturns =>
      cases hturns with
      | @opened db' _ hseq =>
          refine ⟨?_, h.log⟩
          rintro _ ⟨⟩
          rw [hseq]
          exact hholds.below_greatest h.log hcontinues
      | @written db db' op hseq _ =>
          have hbelow := h.serving db rfl
          refine ⟨?_, fun _ => hbelow.greatest_write op⟩
          rintro _ ⟨⟩
          rw [hseq]
          exact hbelow.write (Nat.le_succ _) le_rfl op
      | @filled db db' op hseq _ _ =>
          have hbelow := h.serving db rfl
          refine ⟨?_, fun hne => absurd rfl hne⟩
          rintro _ ⟨⟩
          rw [hseq]
          exact (hbelow.write (Nat.le_succ _) le_rfl op).flushes .flushed
      | @flushed db db' _ hseq _ =>
          refine ⟨?_, fun hne => absurd rfl hne⟩
          rintro _ ⟨⟩
          rw [hseq]
          exact (h.serving db rfl).flushes .flushed
      | unchanged _ => exact ⟨h.serving, h.log⟩
      | closed => exact ⟨fun _ hdb => (by cases hdb), h.log⟩
  | crashed hmoves =>
      refine ⟨fun _ hdb => (by cases hdb), ?_⟩
      cases hmoves with
      | opening => exact h.log
      | lost => exact h.log
      | @written db op L' hL => exact hL.log fun _ => (h.serving db rfl).greatest_write op
      | flushing hL => exact hL.log h.log
      | closing => exact h.log

theorem callEntry_seq_le (c : ℕ × WriteOp) : (callEntry c).seq ≤ c.1 := by
  have := c.2.type.toNat_lt
  rw [Entry.seq, extractTag_callEntry, packSequenceAndType_eq, Nat.shiftRight_eq_div_pow]
  omega

/-- Calls whose numbers and lengths the encoding can represent, with file numbers left. -/
def Regular (dbname : Bytes) (w : World) (call : Call) : Prop := LeavesRoom dbname w ∧ Representable w call

/-- The layers of a run; they are counted if every database was opened on a log that goes on. -/
theorem reach_counted {dbname : Bytes} {w : World} {made : List (Call × Option Status)}
    (h : Reach dbname (Regular dbname) w made) :
    ∃ l L, Holds dbname w l L ∧
      (Reach dbname (fun w call => Regular dbname w call ∧ Continues dbname w call) w made → Counted w L) := by
  by_cases hcontinues : Reach dbname (fun w call => Regular dbname w call ∧ Continues dbname w call) w made
  · obtain ⟨l, L, hholds, hcounted⟩ := reach_holds (I := fun w _ L _ => Counted w L)
      (fun _ _ hP => hP.1)
      (fun _ => ⟨fun _ hdb => (by cases hdb), fun hne => absurd rfl hne⟩)
      (fun hP hholds _ hadvances hI => counted_step hP.2 hholds hadvances hI) hcontinues
    exact ⟨l, L, hholds, fun _ => hcounted⟩
  · obtain ⟨l, L, hholds, -⟩ := reach_holds (I := fun _ _ _ _ => True) (fun _ _ hP => hP)
      (fun _ => trivial) (fun _ _ _ _ _ => trivial) h
    exact ⟨l, L, hholds, fun hreach => absurd hreach hcontinues⟩

theorem Reach.mono {dbname : Bytes} {P Q : World → Call → Prop} (hPQ : ∀ w call, P w call → Q w call)
    {w : World} {made : List (Call × Option Status)} (h : Reach dbname P w made) : Reach dbname Q w made := by
  induction h with
  | start hdir => exact .start hdir
  | step _ hP hstep ih => exact .step ih (hPQ _ _ hP) hstep

/-- A call whose lengths the encoding can represent. -/
def Call.Fits : Call → Prop
  | .perform op => op.Fits
  | _ => True

/-- The calls that may take numbers: the writes and the flushes. -/
def Call.updates : Call → ℕ
  | .perform _ => 1
  | .flush => 1
  | _ => 0

/-- How many of the calls may have taken numbers. -/
def updatesIn (made : List (Call × Option Status)) : ℕ := (made.map fun c => c.1.updates).sum

theorem updatesIn_concat (made : List (Call × Option Status)) (call : Call) (s : Option Status) :
    updatesIn (made ++ [(call, s)]) = updatesIn made + call.updates := by
  rw [updatesIn, List.map_append, List.sum_append]
  rfl

theorem Call.updates_le (call : Call) : call.updates ≤ 1 := by cases call <;> simp [Call.updates]

theorem Call.numbers_eq (call : Call) : call.numbers = 2 * call.updates := by cases call <;> rfl

theorem updatesIn_le_length (made : List (Call × Option Status)) : updatesIn made ≤ made.length := by
  induction made with
  | nil => exact le_refl 0
  | cons c made ih =>
      have := c.1.updates_le
      rw [updatesIn] at ih
      rw [updatesIn, List.map_cons, List.sum_cons, List.length_cons]
      omega

/-- The sequence numbers are at most the number of updates. -/
structure Numerous (w : World) (L : Layers) (n : ℕ) : Prop where
  last_seq : ∀ db, w.db = some db → db.last_seq ≤ n
  below : L.Below n

theorem Layers.Below.current {L : Layers} {n : ℕ} (h : L.Below n) : ∀ c ∈ L.current, c.1 ≤ n :=
  h _ (mem_newestFirst.mpr (Or.inl rfl))

theorem numerous_start (fs : FileSystem) : Numerous ⟨fs, none⟩ Layers.empty 0 := by
  refine ⟨fun _ hdb => (by cases hdb), ?_⟩
  intro calls hcalls c hc
  obtain rfl := List.mem_singleton.mp hcalls
  cases hc

theorem numerous_step {w w' : World} {L L' : Layers} {call : Call} {s : Option Status} {n : ℕ}
    (hadvances : Advances L w call s L' w'.db) (h : Numerous w L n) : Numerous w' L' (n + call.updates) := by
  have hwrite : ∀ {db : DBImpl} {op : WriteOp}, w.db = some db →
      (L.write (db.last_seq + 1) op).Below (n + 1) := fun hdb =>
    h.below.write (Nat.le_succ n) (Nat.succ_le_succ (h.last_seq _ hdb)) _
  obtain ⟨fs, open?⟩ := w
  obtain ⟨fs', open'⟩ := w'
  cases hadvances with
  | ended hturns =>
      cases hturns with
      | opened _ hseq =>
          refine ⟨?_, h.below⟩
          rintro _ ⟨⟩
          rw [hseq]
          exact greatest_le_iff.mpr h.below.current
      | written hseq _ =>
          refine ⟨?_, hwrite rfl⟩
          rintro _ ⟨⟩
          rw [hseq]
          exact Nat.succ_le_succ (h.last_seq _ rfl)
      | filled hseq _ _ =>
          refine ⟨?_, (hwrite rfl).flushes .flushed⟩
          rintro _ ⟨⟩
          rw [hseq]
          exact Nat.succ_le_succ (h.last_seq _ rfl)
      | flushed _ hseq _ =>
          refine ⟨?_, (h.below.flushes .flushed).mono (Nat.le_succ n)⟩
          rintro _ ⟨⟩
          rw [hseq]
          exact (h.last_seq _ rfl).trans (Nat.le_succ n)
      | unchanged _ => exact ⟨fun db hdb => (h.last_seq db hdb).trans (Nat.le_succ n), h.below.mono (Nat.le_succ n)⟩
      | closed => exact ⟨fun _ hdb => (by cases hdb), h.below⟩
  | crashed hmoves =>
      refine ⟨fun _ hdb => (by cases hdb), ?_⟩
      cases hmoves with
      | opening => exact h.below
      | lost => exact h.below.mono (Nat.le_succ n)
      | written hL => exact (hwrite rfl).flushes hL
      | flushing hL => exact (h.below.flushes hL).mono (Nat.le_succ n)
      | closing => exact h.below

/-- **In a run of fewer than `2 ^ 62` updates no counter ends**: the numbers of the files and of the writes
are at most twice the number of updates. -/
theorem reach_regular {dbname : Bytes} {P : World → Call → Prop} (hfits : ∀ w call, P w call → call.Fits)
    {w : World} {made : List (Call × Option Status)} (h : Reach dbname P w made)
    (hcount : updatesIn made < 2 ^ 62) :
    Reach dbname (fun w call => Regular dbname w call ∧ P w call) w made ∧
      ∃ l L, Holds dbname w l L ∧ Numbered w l (2 + 2 * updatesIn made) ∧
        Numerous w L (updatesIn made) := by
  induction h with
  | @start fs hdir =>
      exact ⟨.start hdir, [], Layers.empty, holds_start hdir, numbered_start fs, numerous_start fs⟩
  | @step w w' made call s _ hP hstep ih =>
      rw [updatesIn_concat] at hcount ⊢
      obtain ⟨hreach, l, L, hholds, hnumbered, hnumerous⟩ := ih (by omega)
      have hroom : LeavesRoom dbname w := hnumbered.leavesRoom hholds.sound.rests.1 (by omega)
      have hrep : Representable w call := by
        have hcall := hfits w call hP
        cases call with
        | perform op =>
            refine ⟨hcall, fun db hdb => ?_⟩
            have := hnumerous.last_seq db hdb
            omega
        | openDB => trivial
        | flush => trivial
        | close => trivial
      obtain ⟨l', L', hholds', hadvances, hbecomes⟩ := step_holds hholds hroom hrep hstep
      refine ⟨.step hreach ⟨⟨hroom, hrep⟩, hP⟩ hstep, l', L', hholds', ?_, numerous_step hadvances hnumerous⟩
      have hnext := numbered_step hholds.sound hroom hnumbered hbecomes
      rw [call.numbers_eq] at hnext
      exact hnext.mono (by omega)

/-- **The sequence number of a write**, in every run. -/
theorem next_seq_greater {dbname : Bytes} {w : World} {made : List (Call × Option Status)} {db : DBImpl}
    (h : Reach dbname (fun _ call => call.Fits) w made) (hlen : made.length < 2 ^ 62)
    (hdb : w.db = some db) (op : WriteOp) :
    ∃ (l : List FileEntry) (tables : List (List Entry)), Dir dbname w.fs l ∧
      tableContents l = tables.map tableBytes ∧
      (∀ e ∈ db.mem.table, e.seq < (db.batchOf op).sequence) ∧
      (∀ b ∈ logContents l, ∀ c ∈ DBImpl.callsOf b, c.1 < (db.batchOf op).sequence) ∧
      (Reach dbname (fun w call => call.Fits ∧ Continues dbname w call) w made →
        ∀ es ∈ tables, ∀ e ∈ es, e.seq < (db.batchOf op).sequence) := by
  have hcount := (updatesIn_le_length made).trans_lt hlen
  obtain ⟨hregular, _, _, _, _, hnumerous⟩ := reach_regular (fun _ _ hP => hP) h hcount
  have hseq : db.last_seq + 1 < 2 ^ 64 := by
    have := hnumerous.last_seq db hdb
    omega
  have hsequence : (db.batchOf op).sequence = db.last_seq + 1 := by
    rw [DBImpl.batchOf, Nat.mod_eq_of_lt hseq, WriteBatch.sequence_ofOp op hseq]
  obtain ⟨l, L, hholds, hcounted⟩ := reach_counted (hregular.mono fun _ _ hP => hP.1)
  have hserving := hholds.serving db hdb
  rw [hsequence]
  refine ⟨l, L.tables.map fun calls => (memOf calls).table, hholds.sound.rests.1, ?_, ?_, ?_, ?_⟩
  · rw [hholds.stores.tables, List.map_map]
    rfl
  · intro e he
    rw [hserving.mem] at he
    obtain ⟨c, hc, rfl⟩ := mem_memOf.mp he
    exact Nat.lt_succ_of_le ((callEntry_seq_le c).trans (hserving.last_seq c hc))
  · intro b hb c hc
    obtain ⟨-, hcalls, -⟩ := (hholds.stores.log b hb).replay fun c hc => hholds.wellFormed.writable hc
    rw [hcalls] at hc
    exact Nat.lt_succ_of_le (hserving.last_seq c hc)
  · intro hcontinues es hes e he
    obtain ⟨calls, hcalls, rfl⟩ := List.mem_map.mp hes
    obtain ⟨c, hc, rfl⟩ := mem_memOf.mp he
    obtain ⟨hreach, -⟩ := reach_regular (fun _ _ hP => hP.1) hcontinues hcount
    have hbelow := (hcounted (hreach.mono fun _ _ hP => ⟨hP.1, hP.2.2⟩)).serving db hdb
    have hle := hbelow calls (Layers.mem_newestFirst.mpr (Or.inr hcalls)) c hc
    exact Nat.lt_succ_of_le ((callEntry_seq_le c).trans hle)

/-- The log goes on, or there are no tables. -/
theorem Holds.continues {dbname : Bytes} {w : World} {l : List FileEntry} {L : Layers} {call : Call}
    (h : Holds dbname w l L) (hcurrent : call = .openDB → L.current = [] → L.tables = []) :
    Continues dbname w call := by
  intro hcall l' hdir' hnone
  obtain rfl := h.sound.rests.1.unique hdir'
  rw [h.stores.tables, hcurrent hcall (h.logCalls_eq_nil_iff.mp hnone)]
  rfl

theorem admits_fits (dbname : Bytes) : Admits dbname fun w call => call.Fits ∧ Continues dbname w call :=
  fun hsteady _ _ hdeletes hcurrent =>
    ⟨of_deletes hdeletes ⟨by decide, by decide⟩ trivial trivial trivial, hsteady.holds.continues hcurrent⟩

/-- Behind a flush, a write that a crash cut off, and opening again. -/
theorem next_seq_greater_resumed :
    ∃ (w : World) (db : DBImpl) (l : List FileEntry) (tables : List (List Entry)),
      Reach (ascii "db") (fun _ call => call.Fits) w (cutOffCalls ++ [(.openDB, some Status.OK)]) ∧
        w.db = some db ∧ Dir (ascii "db") w.fs l ∧ tableContents l = tables.map tableBytes ∧
        tableContents l = [tableBytes (memOf loneCalls).table] ∧ logCalls l = [(2, .delete [1])] ∧
        db.mem.table = [callEntry (2, .delete [1])] ∧
        (∀ e ∈ db.mem.table, e.seq < (db.batchOf (.delete [1])).sequence) ∧
        (∀ b ∈ logContents l, ∀ c ∈ DBImpl.callsOf b, c.1 < (db.batchOf (.delete [1])).sequence) ∧
        ∀ es ∈ tables, ∀ e ∈ es, e.seq < (db.batchOf (.delete [1])).sequence := by
  obtain ⟨fs, db, l, hreach, hsteady, hseq⟩ := exists_resumed Dir.empty (admits_fits (ascii "db"))
  have hfits : Reach (ascii "db") (fun _ call => call.Fits) ⟨fs, some db⟩ _ := hreach.mono fun _ _ hP => hP.1
  obtain ⟨l', tables, hdir, htables, hmem, hlog, hrest⟩ :=
    next_seq_greater hfits (by decide) rfl (.delete [1])
  obtain rfl := hsteady.holds.sound.rests.1.unique hdir
  have hserving := hsteady.holds.serving db rfl
  refine ⟨⟨fs, some db⟩, db, l, tables, hfits, rfl, hdir, htables, ?_, ?_, ?_, hmem, hlog, hrest hreach⟩
  · exact hsteady.holds.stores.tables
  · obtain ⟨b, hst, hb⟩ := hserving.log
    obtain ⟨-, hcalls, -⟩ := hb.holds.replay fun c hc => hsteady.holds.wellFormed.writable hc
    rw [logCalls, hsteady.holds.sound.tidy.logContents_eq hst.log_mem, List.flatMap_singleton, hcalls]
    rfl
  · rw [hserving.mem]
    rfl

/-- A run that leaves the deletion in a table, and is at its end opened again. -/
theorem exists_reopened :
    ∃ (w : World) (made : List (Call × Option Status)) (l : List FileEntry) (db : DBImpl),
      Reach (ascii "db") (fun _ _ => True) w made ∧ Holds (ascii "db") w l loneLayers ∧ w.db = some db ∧
        db.last_seq = 0 := by
  obtain ⟨fs, db, l, hreach, hsteady, -⟩ :=
    exists_flushed (P := fun _ _ => True) (@Dir.empty (ascii "db")) fun _ _ _ _ _ => trivial
  obtain ⟨s₁, ⟨fs₁, open₁⟩, l₁, L₁, hreach₁, hturns₁, hsteady₁⟩ :=
    hsteady.exists_other .close hreach trivial (by decide) (fun _ h => by cases h) rfl
  cases hturns₁ with
  | closed =>
      obtain ⟨s₂, ⟨fs₂, open₂⟩, l₂, L₂, hreach₂, hturns₂, hsteady₂⟩ :=
        hsteady₁.exists_other .openDB hreach₁ trivial (by decide) (fun _ h => by cases h) rfl
      cases hturns₂ with
      | @opened db₂ _ hlast => exact ⟨_, _, l₂, db₂, hreach₂, hsteady₂.holds, rfl, hlast⟩

/-- **The sequence numbers start again**: a database whose only entry, with the number 1, was flushed gives
the number 1 to the first write after it is opened again. -/
theorem sequence_starts_again :
    ¬ ∀ (dbname : Bytes) (w : World) (made : List (Call × Option Status)) (db : DBImpl) (op : WriteOp)
      (l : List FileEntry) (tables : List (List Entry)),
      Reach dbname (fun _ _ => True) w made → w.db = some db → Dir dbname w.fs l →
        tableContents l = tables.map tableBytes →
          ∀ es ∈ tables, ∀ e ∈ es, e.seq < (db.batchOf op).sequence := by
  intro hclaim
  obtain ⟨w, made, l, db, hreach, hholds, hdb, hseq⟩ := exists_reopened
  have hlt := hclaim _ w made db (.delete [1]) l [(memOf loneCalls).table] hreach hdb
    hholds.sound.rests.1 hholds.stores.tables _ (List.mem_singleton.mpr rfl)
    (callEntry (1, .delete [1])) (mem_memOf.mpr ⟨_, List.mem_singleton.mpr rfl, rfl⟩)
  rw [DBImpl.batchOf, hseq] at hlt
  exact absurd hlt (by decide)

end MiniLevelDB
