import MiniLevelDB.FlushRecovery
import MiniLevelDB.Lib.Simulation

/-! # The database as a store

What the database is for: a store has values for some of its keys, and each call is one step on it.  A write
a crash cuts off has been made or has not; no other call changes the store.

The database does what the store does (`database_simulation`), in every run with crashes at any moment, and
`Get` reads the store (`get_reads_store`) except where the searches in the tables are misled. -/

namespace MiniLevelDB

open Effect

/-! ### Stores -/

/-- The values of the keys. -/
abbrev Store := Bytes → Option Bytes

namespace Store

def empty : Store := fun _ => none

/-- A write on the store. -/
def apply (σ : Store) (op : WriteOp) : Store := Function.update σ op.key op.stored

/-- What reading a key returns. -/
def read (σ : Store) (key : Bytes) : Except Status Bytes :=
  match σ key with
  | some value => .ok value
  | none => .error (Status.notFound key)

end Store

/-- A store that survives crashes: the calls with the status each has returned, none where a crash has cut it
off. -/
def durable : System (Call × Option Status) Store where
  start σ := σ = Store.empty
  step σ e σ' :=
    match e with
    | none => False
    | some (.perform op, some s) => s.ok = true ∧ σ' = σ.apply op
    | some (.perform op, none) => σ' = σ ∨ σ' = σ.apply op
    | some _ => σ' = σ

/-- The database on a directory that was empty at first. -/
def database (dbname : Bytes) : System (Call × Option Status) World where
  start w := Dir dbname w.fs [] ∧ w.db = none
  step w e w' :=
    match e with
    | none => False
    | some (call, s) => call.Short ∧ Step dbname w call s w'

theorem database_run_iff {dbname : Bytes} {w : World} {made : List (Call × Option Status)} :
    (database dbname).Run w made ↔ Reach dbname (fun _ call => call.Short) w made := by
  constructor
  · intro h
    induction h with
    | @start w hw =>
        obtain ⟨fs, open?⟩ := w
        obtain ⟨hdir, rfl⟩ := hw
        exact .start hdir
    | hidden _ hstep => exact hstep.elim
    | event _ hstep ih => exact .step ih hstep.1 hstep.2
  · intro h
    induction h with
    | start hdir => exact .start ⟨hdir, rfl⟩
    | step _ hshort hstep ih => exact .event ih ⟨hshort, hstep⟩

/-! ### What the layers store -/

/-- The store that the layers hold. -/
def Layers.store (L : Layers) : Store := fun k => (L.find k).bind fun c => c.2.stored

@[simp] theorem Layers.store_empty : Layers.empty.store = Store.empty := rfl

theorem Layers.store_write (L : Layers) (seq : ℕ) (op : WriteOp) :
    (L.write seq op).store = L.store.apply op := by
  funext k
  rw [store, find_write, Store.apply]
  by_cases hk : op.key = k
  · subst hk
    rw [if_pos rfl, Function.update_self]
    rfl
  · rw [if_neg hk, Function.update_of_ne (Ne.symm hk)]
    rfl

theorem Layers.Flushes.store_eq {L L' : Layers} (h : L.Flushes L') : L'.store = L.store := by
  funext k
  rw [store, store, h.find_eq]

/-- A step of the layers is a step of the store. -/
theorem Advances.durable {L L' : Layers} {w : World} {call : Call} {s : Option Status} {db : Option DBImpl}
    (h : Advances L w call s L' db) : durable.step L.store (some (call, s)) L'.store := by
  obtain ⟨fs, open?⟩ := w
  cases h with
  | ended hturns =>
      cases hturns with
      | opened _ _ => exact rfl
      | written _ _ => exact ⟨rfl, L.store_write _ _⟩
      | filled _ _ _ => exact ⟨rfl, (Layers.Flushes.store_eq .flushed).trans (L.store_write _ _)⟩
      | flushed _ _ _ => exact Layers.Flushes.store_eq .flushed
      | unchanged _ => exact rfl
      | closed => exact rfl
  | crashed hmoves =>
      cases hmoves with
      | opening => exact rfl
      | lost => exact Or.inl rfl
      | written hL => exact Or.inr (hL.store_eq.trans (L.store_write _ _))
      | flushing hL => exact hL.store_eq
      | closing => exact rfl

/-- The store is never further than the database. -/
theorem database_simulation (dbname : Bytes) :
    System.Simulation (database dbname) durable (fun made => updatesIn made < 2 ^ 56)
      fun made w σ => ∃ l L, Represents dbname made w l L ∧ σ = L.store where
  start := by
    rintro ⟨fs, open?⟩ ⟨hdir, rfl⟩
    exact ⟨Store.empty, rfl, [], Layers.empty, represents_start hdir, rfl⟩
  hidden := fun _ _ _ _ _ hstep => hstep.elim
  event := by
    rintro made w ⟨call, s⟩ w' σ hcount ⟨l, L, h, rfl⟩ ⟨hshort, hstep⟩
    obtain ⟨l', L', h', hadvances⟩ := h.step (hcount.trans (by decide)) hshort hstep
    exact ⟨L'.store, hadvances.durable, l', L', h', rfl⟩

/-! ### Reading the store -/

/-- **The database does what the store does.**  After every run of calls with short keys and values, and with
crashes at any moment, there is a store that has made the same calls, each write a crash has cut off or not,
and `Get` of a key returns what the store has exactly if the memtable stores the key or the newest table that
stores it answers for it, or is without consequence. -/
theorem get_reads_store {dbname : Bytes} {w : World} {made : List (Call × Option Status)} {db : DBImpl}
    (h : (database dbname).Run w made) (hcount : updatesIn made < 2 ^ 56) (hopen : w.db = some db)
    (hindex : ∀ l, Dir dbname w.fs l → ∀ es, tableBytes es ∈ tableContents l →
      (indexContents (dataBlocks es)).length < 2 ^ 32) :
    ∃ σ views, durable.Run σ made ∧ db.Views views ∧ (∀ v ∈ views, ∀ i, v.intact i = true) ∧
      ∀ k, ∃ r, db.get k = pure r ∧ (r = σ.read k ↔ firstFor k db.mem.table ≠ none ∨ Faithful k views) := by
  have hgood : ∀ made e, updatesIn (made ++ [e]) < 2 ^ 56 → updatesIn made < 2 ^ 56 := by
    rintro made ⟨call, s⟩ hlt
    rw [updatesIn_concat] at hlt
    omega
  obtain ⟨fs, open?⟩ := w
  obtain rfl : open? = some db := hopen
  obtain ⟨σ, hrun, l, L, hrep, rfl⟩ := (database_simulation dbname).run hgood h hcount
  have hfit : ∀ calls ∈ L.tables, BlocksFit (memOf calls).table := by
    intro calls hcalls
    refine ⟨dataBlocks_lt_of_short (hrep.short calls (Layers.mem_newestFirst.mpr (Or.inr hcalls))), ?_⟩
    refine hindex l hrep.holds.sound.rests.1 _ ?_
    rw [hrep.holds.stores.tables]
    exact List.mem_map_of_mem hcalls
  have hviews := hrep.holds.views hfit
  refine ⟨L.store, viewsOf L, hrun, hviews, ?_, fun k => ⟨_, DBImpl.get_eq hviews k, ?_⟩⟩
  · intro v hv i
    obtain ⟨calls, -, rfl⟩ := List.mem_map.mp hv
    rfl
  · have hstored : valueOf (newest k (db.layers (viewsOf L))) = L.store k :=
      hrep.holds.valueOf_newest hrep.numerous.below hcount k
    rw [← DBImpl.valueOf_layers_iff, hstored, answer, Store.read]
    generalize valueOf _ = read
    generalize L.store k = stored
    cases read <;> cases stored <;> simp

theorem get_reads_store_resumed :
    ∃ (fs : FileSystem) (db : DBImpl) (σ : Store) (views : List TableView),
      (database (ascii "db")).Run ⟨fs, some db⟩ (cutOffCalls ++ [(.openDB, some Status.OK)]) ∧
        durable.Run σ (cutOffCalls ++ [(.openDB, some Status.OK)]) ∧ db.Views views ∧
        ∀ k, ∃ r, db.get k = pure r ∧ (r = σ.read k ↔ firstFor k db.mem.table ≠ none ∨ Faithful k views) := by
  obtain ⟨fs, db, l, hreach, hsteady, -⟩ := exists_resumed (@Dir.empty (ascii "db")) (admits_short (ascii "db"))
  obtain ⟨σ, views, hrun, hviews, -, hget⟩ :=
    get_reads_store (database_run_iff.mpr hreach) (by decide) rfl (hsteady.holds.index_lt footprint_loneCalls)
  exact ⟨fs, db, σ, views, database_run_iff.mpr hreach, hrun, hviews, hget⟩

end MiniLevelDB
