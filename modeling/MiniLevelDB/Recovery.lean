import MiniLevelDB.Lib.Simulation
import MiniLevelDB.ReadAfterWrites
import MiniLevelDB.Reopening

/-! # Recovery

Whatever a process has done on a directory, and wherever it has crashed, the directory is opened again and
its layers hold the last write for each key that was logged (`reopened_resolves`): every write that
returned, and for each one a crash has cut off that it was logged or that it was not. -/

namespace MiniLevelDB

open Effect

/-! ### The logged writes of a run -/

/-- A call with a key and a value below `2 ^ 30` bytes. -/
def Call.Short : Call → Prop
  | .perform op => op.Short
  | _ => True

theorem Call.Short.fits {call : Call} (h : call.Short) : call.Fits := by
  cases call with
  | perform op => exact ⟨h.1.trans (by decide), h.2.trans (by decide)⟩
  | openDB => trivial
  | flush => trivial
  | close => trivial

theorem admits_short (dbname : Bytes) : Admits dbname fun _ call => call.Short :=
  fun _ _ _ hdeletes _ => of_deletes hdeletes ⟨by decide, by decide⟩ trivial trivial trivial

/-- The writes a run has logged: those that returned OK, and any of those that a crash has cut off. -/
inductive Logs : List (Call × Option Status) → List WriteOp → Prop
  | nil : Logs [] []
  | returned {made : List (Call × Option Status)} {ops : List WriteOp} {op : WriteOp} {s : Status} :
      Logs made ops → s.ok = true → Logs (made ++ [(.perform op, some s)]) (ops ++ [op])
  | logged {made : List (Call × Option Status)} {ops : List WriteOp} {op : WriteOp} :
      Logs made ops → Logs (made ++ [(.perform op, none)]) (ops ++ [op])
  | lost {made : List (Call × Option Status)} {ops : List WriteOp} {op : WriteOp} :
      Logs made ops → Logs (made ++ [(.perform op, none)]) ops
  | other {made : List (Call × Option Status)} {ops : List WriteOp} {call : Call} {s : Option Status} :
      Logs made ops → (∀ op, call ≠ .perform op) → Logs (made ++ [(call, s)]) ops

/-- All operations in the layers are short. -/
def Layers.Short (L : Layers) : Prop := ∀ calls ∈ L.newestFirst, ∀ c ∈ calls, c.2.Short

theorem Layers.Short.write {L : Layers} {op : WriteOp} (h : L.Short) (hop : op.Short) (seq : ℕ) :
    (L.write seq op).Short := by
  intro calls hcalls c hc
  rcases mem_newestFirst.mp hcalls with rfl | hcalls
  · rcases List.mem_append.mp hc with hc | hc
    · exact h _ (mem_newestFirst.mpr (Or.inl rfl)) c hc
    · obtain rfl := List.mem_singleton.mp hc
      exact hop
  · exact h _ (mem_newestFirst.mpr (Or.inr hcalls)) c hc

theorem Layers.Short.flushes {L L' : Layers} (h : L.Short) (hL : L.Flushes L') : L'.Short := by
  intro calls hcalls c hc
  rcases hL.subset hcalls with hcalls | rfl
  · exact h calls hcalls c hc
  · cases hc

/-- What a call adds to the logged writes. -/
inductive Logging : Call → Option Status → List WriteOp → List WriteOp → Prop
  | returned {ops : List WriteOp} {op : WriteOp} {s : Status} : s.ok = true →
      Logging (.perform op) (some s) ops (ops ++ [op])
  | logged {ops : List WriteOp} {op : WriteOp} : Logging (.perform op) none ops (ops ++ [op])
  | lost {ops : List WriteOp} {op : WriteOp} : Logging (.perform op) none ops ops
  | other {ops : List WriteOp} {call : Call} {s : Option Status} : (∀ op, call ≠ .perform op) →
      Logging call s ops ops

theorem Logs.step {made : List (Call × Option Status)} {ops ops' : List WriteOp} {call : Call}
    {s : Option Status} (h : Logs made ops) (hlogging : Logging call s ops ops') : Logs (made ++ [(call, s)]) ops' := by
  cases hlogging with
  | returned hs => exact .returned h hs
  | logged => exact .logged h
  | lost => exact .lost h
  | other hcall => exact .other h hcall

section

variable {L L' : Layers} {w : World} {call : Call} {s : Option Status} {db : Option DBImpl}

theorem Advances.short (h : Advances L w call s L' db) (hshort : L.Short) (hcall : call.Short) : L'.Short := by
  obtain ⟨fs, open?⟩ := w
  cases h with
  | ended hturns =>
      cases hturns with
      | opened _ _ => exact hshort
      | written _ _ => exact hshort.write hcall _
      | filled _ _ _ => exact (hshort.write hcall _).flushes .flushed
      | flushed _ _ _ => exact hshort.flushes .flushed
      | unchanged _ => exact hshort
      | closed => exact hshort
  | crashed hmoves =>
      cases hmoves with
      | opening => exact hshort
      | lost => exact hshort
      | written hL => exact (hshort.write hcall _).flushes hL
      | flushing hL => exact hshort.flushes hL
      | closing => exact hshort

/-- The layers are moved on as the writes are logged. -/
theorem Advances.logging {ops : List WriteOp} (h : Advances L w call s L' db) (hresolves : L.Resolves ops) :
    ∃ ops', Logging call s ops ops' ∧ L'.Resolves ops' := by
  obtain ⟨fs, open?⟩ := w
  cases h with
  | ended hturns =>
      cases hturns with
      | opened _ _ => exact ⟨ops, .other (fun _ h => by cases h), hresolves⟩
      | written _ _ => exact ⟨_, .returned rfl, hresolves.write _ _⟩
      | filled _ _ _ => exact ⟨_, .returned rfl, (hresolves.write _ _).flushes .flushed⟩
      | flushed _ _ _ => exact ⟨ops, .other (fun _ h => by cases h), hresolves.flushes .flushed⟩
      | unchanged _ => exact ⟨ops, .other (fun _ h => by cases h), hresolves⟩
      | closed => exact ⟨ops, .other (fun _ h => by cases h), hresolves⟩
  | crashed hmoves =>
      cases hmoves with
      | opening => exact ⟨ops, .other (fun _ h => by cases h), hresolves⟩
      | lost => exact ⟨ops, .lost, hresolves⟩
      | written hL => exact ⟨_, .logged, (hresolves.write _ _).flushes hL⟩
      | flushing hL => exact ⟨ops, .other (fun _ h => by cases h), hresolves.flushes hL⟩
      | closing => exact ⟨ops, .other (fun _ h => by cases h), hresolves⟩

end

/-- The files of a world hold the layers of a run. -/
structure Represents (dbname : Bytes) (made : List (Call × Option Status)) (w : World) (l : List FileEntry)
    (L : Layers) : Prop where
  holds : Holds dbname w l L
  numbered : Numbered w l (2 + 2 * updatesIn made)
  numerous : Numerous w L (updatesIn made)
  short : L.Short

theorem represents_start {dbname : Bytes} {fs : FileSystem} (hdir : Dir dbname fs []) :
    Represents dbname [] ⟨fs, none⟩ [] Layers.empty where
  holds := holds_start hdir
  numbered := numbered_start fs
  numerous := numerous_start fs
  short := by
    intro calls hcalls c hc
    obtain rfl := List.mem_singleton.mp hcalls
    cases hc

theorem Represents.step {dbname : Bytes} {made : List (Call × Option Status)} {w w' : World}
    {l : List FileEntry} {L : Layers} {call : Call} {s : Option Status} (h : Represents dbname made w l L)
    (hcount : updatesIn (made ++ [(call, s)]) < 2 ^ 62) (hshort : call.Short) (hstep : Step dbname w call s w') :
    ∃ l' L', Represents dbname (made ++ [(call, s)]) w' l' L' ∧ Advances L w call s L' w'.db := by
  rw [updatesIn_concat] at hcount
  have hroom : LeavesRoom dbname w := h.numbered.leavesRoom h.holds.sound.rests.1 (by omega)
  have hrep : Representable w call := by
    cases call with
    | perform op =>
        refine ⟨hshort.fits, fun db hdb => ?_⟩
        have hlast := h.numerous.last_seq db hdb
        omega
    | openDB => trivial
    | flush => trivial
    | close => trivial
  obtain ⟨l', L', hholds, hadvances, hbecomes⟩ := step_holds h.holds hroom hrep hstep
  have hnumbered := numbered_step h.holds.sound hroom h.numbered hbecomes
  have hnumerous := numerous_step hadvances h.numerous
  rw [call.numbers_eq] at hnumbered
  rw [← updatesIn_concat made call s] at hnumerous
  refine ⟨l', L', ⟨hholds, hnumbered.mono ?_, hnumerous, hadvances.short h.short hshort⟩, hadvances⟩
  rw [updatesIn_concat]
  omega

/-- **The layers of a run** of short calls hold what it has logged. -/
theorem reach_recovers {dbname : Bytes} {w : World} {made : List (Call × Option Status)}
    (h : Reach dbname (fun _ call => call.Short) w made) (hcount : updatesIn made < 2 ^ 62) :
    ∃ l L ops, Represents dbname made w l L ∧ Logs made ops ∧ L.Resolves ops := by
  induction h with
  | start hdir => exact ⟨[], Layers.empty, [], represents_start hdir, .nil, Layers.Resolves.empty⟩
  | @step w w' made call s _ hshort hstep ih =>
      have hle := hcount
      rw [updatesIn_concat] at hle
      obtain ⟨l, L, ops, hrep, hlogs, hresolves⟩ := ih (by omega)
      obtain ⟨l', L', hrep', hadvances⟩ := hrep.step hcount hshort hstep
      obtain ⟨ops', hlogging, hresolves'⟩ := hadvances.logging hresolves
      exact ⟨l', L', ops', hrep', hlogs.step hlogging, hresolves'⟩

/-! ### What the layers store -/

/-- In the first of the layers with an entry for the key, the one with the highest sequence number is that
of the operation; without an operation no layer has an entry for it. -/
def ResolvesTo (k : Bytes) (layers : List (List Entry)) : Option WriteOp → Prop
  | none => ∀ es ∈ layers, ∀ e ∈ es, e.userKey ≠ k
  | some op => ∃ newer es older, layers = newer ++ es :: older ∧ (∀ es' ∈ newer, ∀ e ∈ es', e.userKey ≠ k) ∧
      ∃ e ∈ es, e.userKey = k ∧ (∃ seq, e = entryOf seq op.type op.key op.value) ∧
        ∀ e' ∈ es, e'.userKey = k → e' = e ∨ e'.seq < e.seq

/-- The table stores the entries: its file is that of a table of them, and each of its data blocks reads
as it was written. -/
structure StoresEntries (es : List Entry) (t : Table) : Prop where
  opens : Opens (tableBytes es) t
  blocks : ∀ b ∈ dataBlocks es, ∃ block, Block.new (blockContents b) = .ok block ∧ block.walk = pure b

theorem lastCall_eq_none_iff {k : Bytes} {calls : List (ℕ × WriteOp)} :
    lastCall k calls = none ↔ ∀ c ∈ calls, c.2.key ≠ k := by
  rw [lastCall, List.find?_eq_none]
  constructor
  · intro h c hc hk
    exact h c (List.mem_reverse.mpr hc) (decide_eq_true hk)
  · intro h c hc hk
    exact h c (List.mem_reverse.mp hc) (of_decide_eq_true hk)

/-- The last call for a key has the highest sequence number. -/
theorem lastCall_eq_some {k : Bytes} {calls : List (ℕ × WriteOp)} {c : ℕ × WriteOp}
    (h : Ascending calls) (hc : lastCall k calls = some c) :
    c ∈ calls ∧ c.2.key = k ∧ ∀ d ∈ calls, d.2.key = k → d = c ∨ d.1 < c.1 := by
  induction calls using List.reverseRecOn with
  | nil => cases hc
  | append_singleton calls d ih =>
      have hnew : ∀ e ∈ calls, e.1 < d.1 := fun e he =>
        (List.pairwise_append.mp h.pairwise).2.2 e he d (List.mem_singleton.mpr rfl)
      rw [lastCall_concat] at hc
      split_ifs at hc with hk
      · obtain rfl := Option.some.inj hc
        refine ⟨List.mem_append_right _ (List.mem_singleton.mpr rfl), hk, ?_⟩
        intro e he _
        rcases List.mem_append.mp he with he | he
        · exact Or.inr (hnew e he)
        · exact Or.inl (List.mem_singleton.mp he)
      · obtain ⟨hmem, hkey, hlast⟩ := ih h.left hc
        refine ⟨List.mem_append_left _ hmem, hkey, ?_⟩
        intro e he hek
        rcases List.mem_append.mp he with he | he
        · exact hlast e he hek
        · obtain rfl := List.mem_singleton.mp he
          exact absurd hek hk

/-- The entries of the layers resolve each key to its last operation. -/
theorem Layers.Resolves.resolvesTo {L : Layers} {ops : List WriteOp} {n : ℕ} (h : L.Resolves ops)
    (hascending : ∀ calls ∈ L.newestFirst, Ascending calls) (hbelow : L.Below n) (hn : n < 2 ^ 56) (k : Bytes) :
    ResolvesTo k (L.newestFirst.map fun calls => (memOf calls).table) (lastOp k ops) := by
  have hfind := h k
  rw [find] at hfind
  have hnone : ∀ calls, lastCall k calls = none → ∀ e ∈ (memOf calls).table, e.userKey ≠ k := by
    intro calls hlast e he
    obtain ⟨c, hc, rfl⟩ := mem_memOf.mp he
    rw [callEntry_userKey]
    exact lastCall_eq_none_iff.mp hlast c hc
  cases hfound : L.newestFirst.findSome? (lastCall k) with
  | none =>
      rw [hfound] at hfind
      rw [← hfind]
      intro es hes
      obtain ⟨calls, hcalls, rfl⟩ := List.mem_map.mp hes
      exact hnone calls (List.findSome?_eq_none_iff.mp hfound calls hcalls)
  | some c =>
      rw [hfound] at hfind
      rw [← hfind]
      obtain ⟨newer, calls, older, hsplit, hlast, hnewer⟩ := List.findSome?_eq_some_iff.mp hfound
      have hcalls : calls ∈ L.newestFirst := by
        rw [hsplit]
        exact List.mem_append_right _ List.mem_cons_self
      obtain ⟨hmem, hkey, hhighest⟩ := lastCall_eq_some (hascending calls hcalls) hlast
      have hlt : ∀ d ∈ calls, d.1 < 2 ^ 56 := fun d hd => (hbelow calls hcalls d hd).trans_lt hn
      refine ⟨newer.map fun calls => (memOf calls).table, (memOf calls).table,
        older.map fun calls => (memOf calls).table, ?_, ?_, callEntry c, mem_memOf.mpr ⟨c, hmem, rfl⟩,
        (callEntry_userKey c).trans hkey, ⟨c.1, rfl⟩, ?_⟩
      · rw [hsplit, List.map_append, List.map_cons]
      · intro es hes
        obtain ⟨calls', hcalls', rfl⟩ := List.mem_map.mp hes
        exact hnone calls' (hnewer calls' hcalls')
      · intro e he hek
        obtain ⟨d, hd, rfl⟩ := mem_memOf.mp he
        rw [callEntry_userKey] at hek
        rcases hhighest d hd hek with rfl | hlower
        · exact Or.inl rfl
        · right
          rw [callEntry_seq (hlt d hd), callEntry_seq (hlt c hmem)]
          exact hlower

/-- The blocks of short calls are below `2 ^ 32` bytes. -/
theorem dataBlocks_lt_of_short {calls : List (ℕ × WriteOp)} (hshort : ∀ c ∈ calls, c.2.Short) :
    ∀ b ∈ dataBlocks (memOf calls).table, (blockContents b).length < 2 ^ 32 := by
  intro b hb
  have hcost : ∀ e ∈ (memOf calls).table, entryCost e ≤ 2 ^ 31 + 27 := by
    intro e he
    obtain ⟨c, hc, rfl⟩ := mem_memOf.mp he
    obtain ⟨hkey, hvalue⟩ := hshort c hc
    have hfoot := callEntry_footprint c
    rw [Entry.footprint] at hfoot
    rw [entryCost]
    omega
  have hlen := length_of_mem_cutBlocks hb (by decide) hcost
  rw [TableBuilder.kBlockSize] at hlen
  omega

/-- Blocks below `2 ^ 32` bytes read as they were written. -/
theorem storesEntries_of_fit {es : List Entry} {t : Table}
    (hfit : ∀ b ∈ dataBlocks es, (blockContents b).length < 2 ^ 32) (hopens : Opens (tableBytes es) t) :
    StoresEntries es t :=
  ⟨hopens, fun b hb => ⟨blockOf b, new_blockContents (hfit b hb), Block.walk_eq (hfit b hb)⟩⟩

/-- The tables of short calls read as they were written. -/
theorem storesEntries_tables {L : Layers} {tables : List Table} (hshort : L.Short)
    (hopens : List.Forall₂ Opens (L.tables.map tableFor).reverse tables) :
    List.Forall₂ StoresEntries (L.tables.reverse.map fun calls => (memOf calls).table) tables := by
  rw [← List.map_reverse, List.forall₂_map_left_iff] at hopens
  rw [List.forall₂_map_left_iff]
  have hmem : ∀ calls ∈ L.tables.reverse, ∀ c ∈ calls, c.2.Short := fun calls hcalls =>
    hshort calls (Layers.mem_newestFirst.mpr (Or.inr (List.mem_reverse.mp hcalls)))
  refine (List.forall₂_iff_zip.mpr ⟨hopens.length_eq, fun hzip => ?_⟩)
  exact storesEntries_of_fit (dataBlocks_lt_of_short (hmem _ (List.of_mem_zip hzip).1))
    (List.forall₂_zip hopens hzip)

/-! ### Opening after a run -/

/-- A directory with these layers is opened again, and the layers of the database are these. -/
theorem Holds.reopened {dbname : Bytes} {fs : FileSystem} {l : List FileEntry} {L : Layers}
    {ops : List WriteOp} {n : ℕ} (h : Holds dbname ⟨fs, none⟩ l L) (hroom : LeavesRoom dbname ⟨fs, none⟩)
    (hfew : ∀ l, Dir dbname fs l → ∀ es, tableBytes es ∈ tableContents l → FewBlocks es)
    (hshort : L.Short) (hbelow : L.Below n) (hn : n < 2 ^ 56) (hresolves : L.Resolves ops) :
    ∃ db fs' tables, (DBImpl.openDB dbname).run (disk offsetLimit) fs = .done (.ok db) fs' ∧
      List.Forall₂ StoresEntries tables db.tables ∧ ∀ k, ResolvesTo k (db.mem.table :: tables) (lastOp k ops) := by
  obtain ⟨db, fs', l', hopen, hopened⟩ := h.exists_open hroom (h.mountable hfew)
  refine ⟨db, fs', _, hopen, storesEntries_tables hshort hopened.opens, fun k => ?_⟩
  rw [(hopened.serving db rfl).mem]
  exact hresolves.resolvesTo h.wellFormed.ascending hbelow hn k

/-- The first `n` calls of a run, with the worlds they go through. -/
structure Passes (dbname : Bytes) (ws : ℕ → World) (made : ℕ → Call × Option Status) (n : ℕ) : Prop where
  start : Dir dbname (ws 0).fs []
  closed : (ws 0).db = none
  short : ∀ i < n, (made i).1.Short
  step : ∀ i < n, Step dbname (ws i) (made i).1 (made i).2 (ws (i + 1))

/-- The first calls of a run as a list. -/
def callsUpTo (made : ℕ → Call × Option Status) (n : ℕ) : List (Call × Option Status) := (List.range n).map made

theorem callsUpTo_succ (made : ℕ → Call × Option Status) (n : ℕ) :
    callsUpTo made (n + 1) = callsUpTo made n ++ [((made n).1, (made n).2)] := by
  rw [callsUpTo, List.range_succ, List.map_append]
  rfl

theorem updatesIn_callsUpTo_le (made : ℕ → Call × Option Status) {m n : ℕ} (h : m ≤ n) :
    updatesIn (callsUpTo made m) ≤ updatesIn (callsUpTo made n) := by
  induction n, h using Nat.le_induction with
  | base => exact le_refl _
  | succ n _ ih =>
      rw [callsUpTo_succ, updatesIn_concat]
      omega

/-- Every run is passed through call by call. -/
theorem Reach.passes {dbname : Bytes} {w : World} {made : List (Call × Option Status)}
    (h : Reach dbname (fun _ call => call.Short) w made) :
    ∃ ws f, Passes dbname ws f made.length ∧ ws made.length = w ∧ callsUpTo f made.length = made := by
  induction h with
  | @start fs hdir =>
      refine ⟨fun _ => ⟨fs, none⟩, fun _ => (.close, none), ⟨hdir, rfl, ?_, ?_⟩, rfl, rfl⟩
      · exact fun i hi => absurd hi (Nat.not_lt_zero i)
      · exact fun i hi => absurd hi (Nat.not_lt_zero i)
  | @step w w' made call s _ hshort hstep ih =>
      obtain ⟨ws, f, h, hlast, hcalls⟩ := ih
      rw [List.length_append, List.length_singleton]
      generalize made.length = n at h hlast hcalls
      have hworld : ∀ i ≤ n, Function.update ws (n + 1) w' i = ws i := fun i hi =>
        Function.update_of_ne (by omega) _ _
      have hcall : ∀ i < n, Function.update f n (call, s) i = f i := fun i hi =>
        Function.update_of_ne (by omega) _ _
      have hnew : Function.update f n (call, s) n = (call, s) := Function.update_self _ _ _
      have hend : Function.update ws (n + 1) w' (n + 1) = w' := Function.update_self _ _ _
      refine ⟨Function.update ws (n + 1) w', Function.update f n (call, s), ⟨?_, ?_, ?_, ?_⟩, hend, ?_⟩
      · rw [hworld 0 (Nat.zero_le n)]
        exact h.start
      · rw [hworld 0 (Nat.zero_le n)]
        exact h.closed
      · intro i hi
        rcases Nat.lt_succ_iff_lt_or_eq.mp hi with hlt | rfl
        · rw [hcall i hlt]
          exact h.short i hlt
        · rw [hnew]
          exact hshort
      · intro i hi
        rcases Nat.lt_succ_iff_lt_or_eq.mp hi with hlt | rfl
        · rw [hcall i hlt, hworld i hlt.le, hworld (i + 1) hlt]
          exact h.step i hlt
        · rw [hnew, hworld i (le_refl i), hend, hlast]
          exact hstep
      · rw [callsUpTo_succ, hnew, ← hcalls]
        refine congrArg (· ++ _) (List.map_congr_left fun i hi => ?_)
        exact hcall i (List.mem_range.mp hi)

/-- **A directory is opened again** at every point of every run, with crashes at any moment: there is one
choice of the writes that got logged among those that were cut off, with which the layers hold the last logged
write for each key wherever the directory is opened. -/
theorem reopened_resolves {dbname : Bytes} {ws : ℕ → World} {made : ℕ → Call × Option Status} {n : ℕ}
    (h : Passes dbname ws made n) (hcount : updatesIn (callsUpTo made n) < 2 ^ 56) :
    ∃ ops : ℕ → List WriteOp, ops 0 = [] ∧
      (∀ i < n, Logging (made i).1 (made i).2 (ops i) (ops (i + 1))) ∧
      ∀ i ≤ n, (ws i).db = none →
        (∀ l, Dir dbname (ws i).fs l → ∀ es, tableBytes es ∈ tableContents l → FewBlocks es) →
        ∃ (db : DBImpl) (fs' : FileSystem) (tables : List (List Entry)),
          (DBImpl.openDB dbname).run (disk offsetLimit) (ws i).fs = .done (.ok db) fs' ∧
            List.Forall₂ StoresEntries tables db.tables ∧
            ∀ k, ResolvesTo k (db.mem.table :: tables) (lastOp k (ops i)) := by
  have hle : ∀ {i}, i ≤ n → updatesIn (callsUpTo made i) < 2 ^ 56 := fun hi =>
    (updatesIn_callsUpTo_le made hi).trans_lt hcount
  have hstart : ∃ l L, Represents dbname (callsUpTo made 0) (ws 0) l L ∧ L.Resolves [] := by
    have hclosed := h.closed
    have hdir := h.start
    generalize ws 0 = w at hclosed hdir ⊢
    obtain ⟨fs, open?⟩ := w
    obtain rfl : open? = none := hclosed
    exact ⟨[], Layers.empty, represents_start hdir, Layers.Resolves.empty⟩
  obtain ⟨ops, hzero, hlogging, hholds⟩ := exists_matching (R := fun i => Logging (made i).1 (made i).2)
    (I := fun i ops => ∃ l L, Represents dbname (callsUpTo made i) (ws i) l L ∧ L.Resolves ops) (n := n)
    hstart (by
      rintro i hi ops ⟨l, L, hrep, hresolves⟩
      have hlt := hle hi
      rw [Nat.succ_eq_add_one, callsUpTo_succ] at hlt
      obtain ⟨l', L', hrep', hadvances⟩ := hrep.step (hlt.trans (by decide)) (h.short i hi) (h.step i hi)
      obtain ⟨ops', hlogging, hresolves'⟩ := hadvances.logging hresolves
      rw [← callsUpTo_succ] at hrep'
      exact ⟨ops', hlogging, l', L', hrep', hresolves'⟩)
  refine ⟨ops, hzero, hlogging, fun i hi hclosed hfew => ?_⟩
  obtain ⟨l, L, hrep, hresolves⟩ := hholds i hi
  have hlt := hle hi
  generalize ws i = w at hclosed hfew hrep ⊢
  obtain ⟨fs, open?⟩ := w
  obtain rfl : open? = none := hclosed
  exact hrep.holds.reopened (hrep.numbered.leavesRoom hrep.holds.sound.rests.1 (by omega)) hfew hrep.short
    hrep.numerous.below hlt hresolves

/-- Behind a flush and a write that is cut off when it is in the log. -/
theorem reopened_resolves_cutOff :
    ∃ (ws : ℕ → World) (made : ℕ → Call × Option Status) (ops : ℕ → List WriteOp) (db : DBImpl)
      (fs' : FileSystem) (tables : List (List Entry)),
      Passes (ascii "db") ws made 4 ∧ callsUpTo made 4 = cutOffCalls ∧ (ws 4).db = none ∧ ops 0 = [] ∧
        (∀ i < 4, Logging (made i).1 (made i).2 (ops i) (ops (i + 1))) ∧
        (DBImpl.openDB (ascii "db")).run (disk offsetLimit) (ws 4).fs = .done (.ok db) fs' ∧
        List.Forall₂ StoresEntries tables db.tables ∧
        ∀ k, ResolvesTo k (db.mem.table :: tables) (lastOp k (ops 4)) := by
  obtain ⟨fs, l, hreach, hsteady⟩ := exists_cutOff Dir.empty (admits_short (ascii "db"))
  obtain ⟨ws, made, hpasses, hlast, hcalls⟩ := hreach.passes
  have hpasses : Passes (ascii "db") ws made 4 := hpasses
  have hlast : ws 4 = ⟨fs, none⟩ := hlast
  have hcalls : callsUpTo made 4 = cutOffCalls := hcalls
  obtain ⟨ops, hzero, hlogging, hopens⟩ := reopened_resolves hpasses (by rw [hcalls]; decide)
  have hclosed : (ws 4).db = none := congrArg World.db hlast
  obtain ⟨db, fs', tables, hopen⟩ := hopens 4 (le_refl 4) hclosed (by
    intro l' hdir' es hes
    rw [hlast] at hdir'
    exact fewBlocks_of_index_lt (hsteady.holds.index_lt footprint_loneCalls l' hdir' es hes))
  exact ⟨ws, made, ops, db, fs', tables, hpasses, hcalls, hclosed, hzero, hlogging, hopen⟩

end MiniLevelDB
