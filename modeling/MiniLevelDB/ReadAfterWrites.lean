import MiniLevelDB.Numbering
import MiniLevelDB.ReadPath

/-! # Reading what was written

A database is opened on an empty directory, and `Put` and `Delete` are called, with the flushes that the
size of the memtable makes.  `Served` says what the database then is: its layers hold the last call for
each key (`exists_served`).  `Get` answers with that call exactly when the searches in the newest table
that stores the key are not misled. -/

namespace MiniLevelDB

open Effect

namespace DBImpl

/-- Calls of `Put` and `Delete` one after the other, up to the first that fails. -/
def performAll : List WriteOp → DBImpl → FileProg (Status × DBImpl)
  | [], db => .ret (Status.OK, db)
  | op :: ops, db => db.perform op >>= fun (s, db) =>
      if !s.ok then .ret (s, db) else performAll ops db

/-- A database is opened, and the calls are made on it. -/
def openAndPerform (dbname : Bytes) (ops : List WriteOp) : FileProg (Except Status DBImpl) :=
  openDB dbname >>= fun
    | .error s => .ret (.error s)
    | .ok db => db.performAll ops >>= fun (s, db) => .ret (if s.ok then .ok db else .error s)

end DBImpl

/-- The value an operation stores. -/
def WriteOp.stored : WriteOp → Option Bytes
  | .put _ value => some value
  | .delete _ => none

theorem valueOf_callEntry (c : ℕ × WriteOp) : valueOf (some (callEntry c)) = c.2.stored := by
  have hresult := callEntry_result c
  rcases result_cases (callEntry c) with ⟨v, hr, hv⟩ | ⟨hr, hv⟩
  · rw [hv]
    rw [hr] at hresult
    cases hop : c.2 with
    | put key value =>
        rw [hop] at hresult
        rw [WriteOp.stored, LookupState.kValue.inj hresult]
    | delete key =>
        rw [hop] at hresult
        cases hresult
  · rw [hv]
    rw [hr] at hresult
    cases hop : c.2 with
    | put key value =>
        rw [hop] at hresult
        cases hresult
    | delete key => rfl

/-- Keys and values below `2 ^ 30` bytes. -/
def WriteOp.Short (op : WriteOp) : Prop := op.key.length < 2 ^ 30 ∧ op.value.length < 2 ^ 30

/-! ### The layers behind the calls -/

/-- The layers behind one more call, which has the sequence number `seq`: the memtable is flushed when it is
full. -/
def Layers.perform (L : Layers) (seq : ℕ) (op : WriteOp) : Layers :=
  if (memOf (L.write seq op).current).approximateMemoryUsage ≥ kMaxMemTableBytes then
    (L.write seq op).flushed
  else L.write seq op

/-- The layers behind calls that follow `n` others. -/
def Layers.performAll (L : Layers) (n : ℕ) : List WriteOp → Layers
  | [] => L
  | op :: ops => (L.perform (n + 1) op).performAll (n + 1) ops

/-- The layers behind the calls on an empty directory. -/
def layersOf (ops : List WriteOp) : Layers := Layers.empty.performAll 0 ops

theorem Layers.performAll_concat (L : Layers) (n : ℕ) (ops : List WriteOp) (op : WriteOp) :
    L.performAll n (ops ++ [op]) = (L.performAll n ops).perform (n + ops.length + 1) op := by
  induction ops generalizing L n with
  | nil => rfl
  | cons op' ops ih =>
      rw [List.cons_append, performAll, ih, performAll, List.length_cons]
      congr 1
      omega

theorem layersOf_concat (ops : List WriteOp) (op : WriteOp) :
    layersOf (ops ++ [op]) = (layersOf ops).perform (ops.length + 1) op := by
  rw [layersOf, Layers.performAll_concat, Nat.zero_add]
  rfl

/-! ### The database behind the calls -/

/-- An open database after the calls `ops`. -/
structure Served (dbname : Bytes) (fs : FileSystem) (db : DBImpl) (l : List FileEntry) (L : Layers)
    (ops : List WriteOp) : Prop where
  steady : Steady dbname ⟨fs, some db⟩ l L (2 + 2 * ops.length)
  layers : L = layersOf ops
  resolves : L.Resolves ops
  last_seq : db.last_seq = ops.length
  below : L.Below ops.length
  usage : db.mem.approximateMemoryUsage < kMaxMemTableBytes
  tables : ∀ calls ∈ L.tables, (memOf calls).approximateMemoryUsage < 2 ^ 32 - 4

section

variable {dbname : Bytes} {fs : FileSystem} {db : DBImpl} {l : List FileEntry} {L : Layers}
  {ops : List WriteOp} {op : WriteOp}

/-- With one more call the memtable still fits into a table. -/
theorem Served.usage_write (h : Served dbname fs db l L ops) (hshort : op.Short) (seq : ℕ) :
    (memOf (L.write seq op).current).approximateMemoryUsage < 2 ^ 32 - 4 := by
  have husage := h.usage
  rw [(h.steady.holds.serving db rfl).mem] at husage
  obtain ⟨hkey, hvalue⟩ := hshort
  rw [Layers.write, memoryUsage_concat, callEntry_footprint]
  unfold kMaxMemTableBytes at husage
  dsimp only
  omega

theorem Served.smallWith (h : Served dbname fs db l L ops) (hshort : op.Short) :
    SmallWith L (some db) (.perform op) := by
  refine ⟨h.steady.small, ?_⟩
  rintro _ _ ⟨⟩ ⟨⟩ calls hcalls
  have husage := h.usage_write hshort (db.last_seq + 1)
  rcases Layers.mem_newestFirst.mp hcalls with rfl | hcalls
  · unfold SmallCalls
    omega
  · exact h.steady.small calls (Layers.mem_newestFirst.mpr (Or.inr hcalls))

/-- A call is made: it returns OK, and the database has it. -/
theorem Served.exists_perform (h : Served dbname fs db l L ops) (hshort : op.Short)
    (hcount : (ops ++ [op]).length < 2 ^ 56) :
    ∃ db' fs' l' L', (db.perform op).run (disk offsetLimit) fs = .done (Status.OK, db') fs' ∧
      Served dbname fs' db' l' L' (ops ++ [op]) := by
  have hlen : (ops ++ [op]).length = ops.length + 1 := List.length_append
  have hfits : op.Fits := ⟨hshort.1.trans (by decide), hshort.2.trans (by decide)⟩
  have hseq := h.last_seq
  have hrep : Representable ⟨fs, some db⟩ (.perform op) := by
    refine ⟨hfits, ?_⟩
    rintro _ ⟨⟩
    omega
  obtain ⟨s, open', fs', l', L', hrun, hturns, hsteady⟩ :=
    h.steady.exists_done (by omega) hrep (h.smallWith hshort) rfl
  obtain ⟨⟨s₁, db₁⟩, fs₁, hperform, hret⟩ := Prog.run_bind_eq_done _ hrun
  obtain ⟨hs, hfs⟩ := Outcome.done.inj hret
  obtain ⟨rfl, rfl⟩ := Prod.mk.inj hs
  obtain rfl := hfs
  have hnumbers : 2 + 2 * ops.length + (Call.perform op).numbers = 2 + 2 * (ops ++ [op]).length := by
    rw [hlen, Call.numbers]
    omega
  rw [hnumbers] at hsteady
  have hwritten : (L.write (db.last_seq + 1) op).Resolves (ops ++ [op]) := h.resolves.write _ op
  have hbelow : (L.write (db.last_seq + 1) op).Below (ops ++ [op]).length := by
    rw [hseq, hlen]
    exact h.below.write (Nat.le_succ _) le_rfl op
  cases hturns with
  | written hlast husage =>
      refine ⟨db₁, _, l', _, hperform, hsteady, ?_, hwritten, by rw [hlast, hseq, hlen], hbelow, husage,
        h.tables⟩
      rw [layersOf_concat, ← h.layers, Layers.perform, ← hseq, if_neg]
      rw [(hsteady.holds.serving _ rfl).mem] at husage
      exact not_le.mpr husage
  | filled hlast hmem hfull =>
      refine ⟨db₁, _, l', _, hperform, hsteady, ?_, hwritten.flushes .flushed, by rw [hlast, hseq, hlen],
        hbelow.flushes .flushed, ?_, ?_⟩
      · rw [layersOf_concat, ← h.layers, Layers.perform, ← hseq, if_pos hfull]
      · rw [hmem]
        decide
      · intro calls hcalls
        rcases List.mem_append.mp hcalls with hcalls | hcalls
        · exact h.tables calls hcalls
        · obtain rfl := List.mem_singleton.mp hcalls
          exact h.usage_write hshort _

/-- All calls are made. -/
theorem Served.exists_performAll {new : List WriteOp} (h : Served dbname fs db l L ops)
    (hshort : ∀ op ∈ new, op.Short) (hcount : (ops ++ new).length < 2 ^ 56) :
    ∃ db' fs' l' L', (db.performAll new).run (disk offsetLimit) fs = .done (Status.OK, db') fs' ∧
      Served dbname fs' db' l' L' (ops ++ new) := by
  induction new generalizing fs db l L ops with
  | nil => exact ⟨db, fs, l, L, rfl, by rwa [List.append_nil]⟩
  | cons op new ih =>
      rw [List.append_cons] at hcount ⊢
      have hfirst : (ops ++ [op]).length < 2 ^ 56 := by
        rw [List.length_append] at hcount
        omega
      obtain ⟨db₁, fs₁, l₁, L₁, hrun, h₁⟩ := h.exists_perform (hshort op List.mem_cons_self) hfirst
      obtain ⟨db', fs', l', L', hrun', h'⟩ := ih h₁ (fun o ho => hshort o (List.mem_cons_of_mem _ ho)) hcount
      refine ⟨db', fs', l', L', ?_, h'⟩
      rw [DBImpl.performAll, Prog.run_bind_done _ hrun]
      exact hrun'

end

/-- **The calls on an empty directory.** -/
theorem exists_served {dbname : Bytes} {fs : FileSystem} (hdir : Dir dbname fs []) {ops : List WriteOp}
    (hshort : ∀ op ∈ ops, op.Short) (hcount : ops.length < 2 ^ 56) :
    ∃ db fs' l L, (DBImpl.openAndPerform dbname ops).run (disk offsetLimit) fs = .done (.ok db) fs' ∧
      Served dbname fs' db l L ops := by
  have hstart := steady_start hdir
  have hsmall : SmallWith Layers.empty none .openDB := hstart.small.with fun _ h => by cases h
  have hrep : Representable ⟨fs, none⟩ .openDB := trivial
  obtain ⟨s, open', fs₁, l₁, L₁, hrun, hturns, hsteady⟩ := hstart.exists_done (by decide) hrep hsmall rfl
  cases hturns with
  | @opened db₁ hmem hlast =>
      obtain ⟨r, fs₂, hopen, hret⟩ := Prog.run_bind_eq_done _ hrun
      cases r with
      | error s => cases hret
      | ok db =>
          obtain ⟨hs, rfl⟩ := Outcome.done.inj hret
          obtain rfl : db = db₁ := Option.some.inj (Prod.mk.inj hs).2
          have hserved : Served dbname fs₂ db l₁ Layers.empty [] := by
            refine ⟨hsteady, rfl, Layers.Resolves.empty, hlast, ?_, ?_, fun _ hc => by cases hc⟩
            · intro calls hcalls c hc
              obtain rfl := List.mem_singleton.mp hcalls
              cases hc
            · rw [hmem]
              decide
          obtain ⟨db', fs', l', L', hall, h'⟩ := hserved.exists_performAll hshort hcount
          refine ⟨db', fs', l', L', ?_, h'⟩
          rw [DBImpl.openAndPerform, Prog.run_bind_done _ hopen]
          exact Prog.run_bind_done _ hall

/-! ### The tables of the layers -/

/-- The tables as they lie on the disk. -/
def viewsOf (L : Layers) : List TableView :=
  L.tables.reverse.map fun calls => ⟨dataBlocks (memOf calls).table, fun _ => true⟩

section

variable {dbname : Bytes} {fs : FileSystem} {db : DBImpl} {l : List FileEntry} {L : Layers}
  {ops : List WriteOp}

theorem blocksFit_of_usage {calls : List (ℕ × WriteOp)}
    (h : (memOf calls).approximateMemoryUsage < 2 ^ 32 - 4) : BlocksFit (memOf calls).table := by
  apply blocksFit_of_footprint
  rw [MemTable.approximateMemoryUsage_eq] at h
  omega

/-- A table whose blocks fit serves its entries. -/
theorem serves_of_opens {es : List Entry} {t : Table} (hfit : BlocksFit es) (hordered : Ordered es)
    (hopens : Opens (tableBytes es) t) : Serves t (dataBlocks es) fun _ => true := by
  rw [Opens, load_tableBytes hfit] at hopens
  obtain rfl : tableOf es = t := Except.ok.inj (Except.ok.inj hopens)
  exact serves_tableOf hfit hordered

/-- The open tables, where their blocks fit. -/
theorem Holds.views (h : Holds dbname ⟨fs, some db⟩ l L) (hfit : ∀ calls ∈ L.tables, BlocksFit (memOf calls).table) :
    db.Views (viewsOf L) := by
  have hopens := h.opens
  rw [← List.map_reverse, List.forall₂_map_left_iff] at hopens
  rw [DBImpl.Views, viewsOf, List.forall₂_map_right_iff]
  refine (List.forall₂_iff_zip.mpr ⟨hopens.flip.length_eq, fun {t calls} hzip => ?_⟩)
  have hcalls : calls ∈ L.tables := List.mem_reverse.mp (List.of_mem_zip hzip).2
  exact serves_of_opens (hfit calls hcalls) (memOf calls).ordered (List.forall₂_zip hopens.flip hzip)

/-- The newest entry of a key is that of its last call. -/
theorem Holds.newest_eq {n : ℕ} (h : Holds dbname ⟨fs, some db⟩ l L) (hbelow : L.Below n) (hn : n < 2 ^ 56)
    (k : Bytes) : newest k (db.layers (viewsOf L)) = (L.find k).map callEntry := by
  have hlayers : db.layers (viewsOf L) = L.newestFirst.map fun calls => (memOf calls).table := by
    rw [DBImpl.layers, viewsOf, List.map_map, (h.serving db rfl).mem, Layers.newestFirst, List.map_cons]
    exact congrArg _ (List.map_congr_left fun calls _ => dataBlocks_flatten _)
  have hfirst : ∀ calls ∈ L.newestFirst,
      firstFor k (memOf calls).table = (lastCall k calls).map callEntry := by
    intro calls hcalls
    apply firstFor_memOf (h.wellFormed.ascending calls hcalls)
    exact fun c hc => (hbelow calls hcalls c hc).trans_lt hn
  rw [hlayers, newest, Layers.find]
  generalize L.newestFirst = layers at hfirst
  induction layers with
  | nil => rfl
  | cons calls layers ih =>
      rw [List.map_cons, List.findSome?_cons, List.findSome?_cons, hfirst calls List.mem_cons_self,
        ih fun c hc => hfirst c (List.mem_cons_of_mem _ hc)]
      cases lastCall k calls <;> rfl

/-- The value it stores is that of the call. -/
theorem Holds.valueOf_newest {n : ℕ} (h : Holds dbname ⟨fs, some db⟩ l L) (hbelow : L.Below n) (hn : n < 2 ^ 56)
    (k : Bytes) : valueOf (newest k (db.layers (viewsOf L))) = (L.find k).bind fun c => c.2.stored := by
  rw [h.newest_eq hbelow hn]
  cases L.find k with
  | none => rfl
  | some c => exact valueOf_callEntry c

end

/-- The open tables after the calls. -/
theorem Served.views {dbname : Bytes} {fs : FileSystem} {db : DBImpl} {l : List FileEntry} {L : Layers}
    {ops : List WriteOp} (h : Served dbname fs db l L ops) : db.Views (viewsOf L) :=
  h.steady.holds.views fun calls hcalls => blocksFit_of_usage (h.tables calls hcalls)

theorem lastOp_eq_put_iff {k v : Bytes} {ops : List WriteOp} :
    lastOp k ops = some (.put k v) ↔ (lastOp k ops).bind WriteOp.stored = some v := by
  cases h : lastOp k ops with
  | none => simp
  | some op =>
      have hkey := lastOp_key h
      cases op with
      | put key value =>
          obtain rfl : key = k := hkey
          simp [WriteOp.stored]
      | delete key => simp [WriteOp.stored]

theorem lastOp_eq_delete_iff {k : Bytes} {ops : List WriteOp} :
    (lastOp k ops = some (.delete k) ∨ lastOp k ops = none) ↔ (lastOp k ops).bind WriteOp.stored = none := by
  cases h : lastOp k ops with
  | none => simp
  | some op =>
      have hkey := lastOp_key h
      cases op with
      | put key value => simp [WriteOp.stored]
      | delete key =>
          obtain rfl : key = k := hkey
          simp [WriteOp.stored]

/-- `Get` finds the last call for the key: the memtable stores the key, or the newest table that stores it
answers for it, or is without consequence. -/
def Findable (ops : List WriteOp) (k : Bytes) : Prop :=
  (∃ c ∈ (layersOf ops).current, c.2.key = k) ∨ Faithful k (viewsOf (layersOf ops))

theorem firstFor_memOf_ne_none_iff {calls : List (ℕ × WriteOp)} {k : Bytes} :
    firstFor k (memOf calls).table ≠ none ↔ ∃ c ∈ calls, c.2.key = k := by
  rw [← Option.isSome_iff_ne_none, firstFor, List.find?_isSome]
  constructor
  · rintro ⟨e, he, hk⟩
    obtain ⟨c, hc, rfl⟩ := mem_memOf.mp he
    exact ⟨c, hc, (callEntry_userKey c).symm.trans (of_decide_eq_true hk)⟩
  · rintro ⟨c, hc, rfl⟩
    exact ⟨callEntry c, mem_memOf.mpr ⟨c, hc, rfl⟩, decide_eq_true (callEntry_userKey c)⟩

/-- What `Get` returns for a key is what the calls have left for it. -/
def Returns (ops : List WriteOp) (k : Bytes) (r : Except Status Bytes) : Prop :=
  (∀ v, r = .ok v ↔ lastOp k ops = some (.put k v)) ∧
    (r = .error (Status.notFound k) ↔ lastOp k ops = some (.delete k) ∨ lastOp k ops = none)

theorem Served.get_iff {dbname : Bytes} {fs : FileSystem} {db : DBImpl} {l : List FileEntry} {L : Layers}
    {ops : List WriteOp} (h : Served dbname fs db l L ops) (hcount : ops.length < 2 ^ 56) (k : Bytes) :
    ∃ r, db.get k = pure r ∧ (Returns ops k r ↔ Findable ops k) := by
  have hviews := h.views
  have hmem := (h.steady.holds.serving db rfl).mem
  have hstored : (L.find k).bind (fun c => c.2.stored) = (lastOp k ops).bind WriteOp.stored := by
    rw [← h.resolves k, Option.bind_map]
    rfl
  have hvalue := (h.steady.holds.valueOf_newest h.below hcount k).trans hstored
  rw [h.layers] at hviews hmem hvalue
  refine ⟨_, DBImpl.get_eq hviews k, ?_⟩
  rw [Findable, ← firstFor_memOf_ne_none_iff, ← hmem, ← DBImpl.valueOf_layers_iff, hvalue, Returns,
    lastOp_eq_delete_iff, answer_eq_error_iff]
  simp only [lastOp_eq_put_iff, answer_eq_ok_iff]
  constructor
  · rintro ⟨hput, -⟩
    exact Option.ext hput
  · intro heq
    rw [heq]
    exact ⟨fun v => Iff.rfl, Iff.rfl⟩

/-- **When `Get` returns what was written.**  Calls of `Put` and `Delete` on a database opened on an empty
directory all return OK, and `Get` of a key then gives the value of the last call for it, or NotFound if
that was a deletion or there was none, exactly if the last call can be found. -/
theorem get_after_calls_iff (dbname : Bytes) (fs : FileSystem) (ops : List WriteOp)
    (hdir : Dir dbname fs [])
    (hshort : ∀ op ∈ ops, op.key.length < 2 ^ 30 ∧ op.value.length < 2 ^ 30)
    (hcount : ops.length < 2 ^ 56) :
    ∃ db fs', (DBImpl.openAndPerform dbname ops).run (disk offsetLimit) fs = .done (.ok db) fs' ∧
      db.mem = memOf (layersOf ops).current ∧ db.Views (viewsOf (layersOf ops)) ∧
      ∀ k, ∃ r, db.get k = pure r ∧ (Returns ops k r ↔ Findable ops k) := by
  obtain ⟨db, fs', l, L, hrun, hserved⟩ := exists_served hdir hshort hcount
  have hviews := hserved.views
  have hmem := (hserved.steady.holds.serving db rfl).mem
  rw [hserved.layers] at hviews hmem
  exact ⟨db, fs', hrun, hmem, hviews, hserved.get_iff hcount⟩

/-! ### A key that is lost -/

/-- A key, a longer one, and a value that fills the memtable. -/
def prefixOps (v : Bytes) : List WriteOp := [.put [97] [120], .put [97, 0] [121], .put [98] v]

/-- The entries of the three calls. -/
def prefixEntries (v : Bytes) : List Entry :=
  [callEntry (1, .put [97] [120]), callEntry (2, .put [97, 0] [121]), callEntry (3, .put [98] v)]

theorem layersOf_prefixOps {v : Bytes} (hv : v.length = 2 ^ 22) :
    layersOf (prefixOps v) =
      ⟨[[(1, .put [97] [120]), (2, .put [97, 0] [121]), (3, .put [98] v)]], []⟩ := by
  have hfirst : Layers.empty.perform 1 (.put [97] [120]) = ⟨[], [(1, .put [97] [120])]⟩ :=
    if_neg (by decide)
  have hsecond : Layers.perform ⟨[], [(1, .put [97] [120])]⟩ 2 (.put [97, 0] [121]) =
      ⟨[], [(1, .put [97] [120]), (2, .put [97, 0] [121])]⟩ := if_neg (by decide)
  have husage : (memOf [(1, .put [97] [120]), (2, .put [97, 0] [121]),
      (3, .put [98] v)]).approximateMemoryUsage ≥ kMaxMemTableBytes := by
    have hconcat := memoryUsage_concat [(1, .put [97] [120]), (2, .put [97, 0] [121])] (3, .put [98] v)
    rw [callEntry_footprint] at hconcat
    change (memOf ([(1, .put [97] [120]), (2, .put [97, 0] [121])] ++ [(3, .put [98] v)])).approximateMemoryUsage
      ≥ _
    rw [hconcat]
    change _ + (1 + v.length + 136) ≥ _
    rw [hv, kMaxMemTableBytes]
    omega
  rw [layersOf, prefixOps, Layers.performAll, hfirst, Layers.performAll, hsecond, Layers.performAll,
    Layers.performAll, Layers.perform]
  exact if_pos husage

theorem memOf_prefixOps (v : Bytes) :
    (memOf [(1, .put [97] [120]), (2, .put [97, 0] [121]), (3, .put [98] v)]).table = prefixEntries v := rfl

theorem dataBlocks_prefixEntries (v : Bytes) : dataBlocks (prefixEntries v) = [prefixEntries v] := by
  have hone : sizeEstimate [callEntry (1, .put [97] [120])] < TableBuilder.kBlockSize :=
    sizeEstimate_lt_of_cost (by decide)
  have htwo : sizeEstimate [callEntry (1, .put [97] [120]), callEntry (2, .put [97, 0] [121])] <
      TableBuilder.kBlockSize := sizeEstimate_lt_of_cost (by decide)
  rw [dataBlocks, prefixEntries, cutBlocks, List.nil_append, if_neg hone.not_ge, cutBlocks,
    List.singleton_append, if_neg htwo.not_ge, cutBlocks]
  split
  · rfl
  · rfl

/-- The longer key cannot be found. -/
theorem not_findable_prefixOps {v : Bytes} (hv : v.length = 2 ^ 22) : ¬ Findable (prefixOps v) [97, 0] := by
  have hunreachable : ¬ ReachableIn (prefixEntries v) [97, 0] := by
    intro h
    have hindex : firstIndex [97, 0] (prefixEntries v) = 1 := rfl
    have hbelow := h.2 0 (by rw [hindex]; decide) (by rw [hindex]; decide)
    have hnot : Block.keyBelow (prefixEntries v) [97, 0] 0 = false := rfl
    rw [hnot] at hbelow
    cases hbelow
  have hfirst : firstFor [97, 0] (TableView.entries ⟨[prefixEntries v], fun _ => true⟩) =
      some (callEntry (2, .put [97, 0] [121])) := rfl
  rw [Findable, layersOf_prefixOps hv]
  rintro (⟨c, hc, -⟩ | hfaithful)
  · cases hc
  · rw [viewsOf, List.reverse_singleton, List.map_singleton, memOf_prefixOps, dataBlocks_prefixEntries,
      Faithful, hfirst] at hfaithful
    rcases hfaithful with hanswers | hvalue
    · exact hunreachable hanswers.1.2
    · rw [valueOf_callEntry] at hvalue
      cases hvalue

theorem short_prefixOps {v : Bytes} (hv : v.length = 2 ^ 22) : ∀ op ∈ prefixOps v, op.Short := by
  intro op hop
  rcases List.mem_cons.mp hop with rfl | hop
  · exact ⟨by decide, by decide⟩
  · rcases List.mem_cons.mp hop with rfl | hop
    · exact ⟨by decide, by decide⟩
    · obtain rfl := List.mem_singleton.mp hop
      refine ⟨(by decide : 1 < 2 ^ 30), ?_⟩
      change v.length < 2 ^ 30
      omega

theorem length_prefixOps_lt (v : Bytes) : (prefixOps v).length < 2 ^ 56 := by
  change 3 < 2 ^ 56
  omega

theorem get_after_calls_iff_flushed :
    ∃ v db fs', (DBImpl.openAndPerform (ascii "db") (prefixOps v)).run (disk offsetLimit) ∅ = .done (.ok db) fs' ∧
      (layersOf (prefixOps v)).tables.length = 1 ∧ db.Views (viewsOf (layersOf (prefixOps v))) ∧
      ∃ r, db.get [97, 0] = pure r ∧ ¬ Returns (prefixOps v) [97, 0] r := by
  obtain ⟨v, hv⟩ : ∃ v : Bytes, v.length = 2 ^ 22 := ⟨List.replicate (2 ^ 22) 0, List.length_replicate⟩
  obtain ⟨db, fs', hrun, -, hviews, hget⟩ :=
    get_after_calls_iff (ascii "db") ∅ (prefixOps v) Dir.empty (short_prefixOps hv) (length_prefixOps_lt v)
  obtain ⟨r, hr, hiff⟩ := hget [97, 0]
  refine ⟨v, db, fs', hrun, ?_, hviews, r, hr, fun h => not_findable_prefixOps hv (hiff.mp h)⟩
  rw [layersOf_prefixOps hv]
  rfl

/-- **A key is not found that was put**: it is in a table with a key it continues. -/
theorem put_not_found :
    ¬ ∀ (dbname : Bytes) (fs fs' : FileSystem) (ops : List WriteOp) (db : DBImpl) (k : Bytes)
      (r : Except Status Bytes), Dir dbname fs [] →
      (∀ op ∈ ops, op.key.length < 2 ^ 30 ∧ op.value.length < 2 ^ 30) →
      (DBImpl.openAndPerform dbname ops).run (disk offsetLimit) fs = .done (.ok db) fs' →
      db.get k = pure r → Returns ops k r := by
  intro hclaim
  obtain ⟨v, hv⟩ : ∃ v : Bytes, v.length = 2 ^ 22 := ⟨List.replicate (2 ^ 22) 0, List.length_replicate⟩
  have hshort := short_prefixOps hv
  have hcount := length_prefixOps_lt v
  obtain ⟨db, fs', l, L, hrun, hserved⟩ := exists_served (@Dir.empty (ascii "db")) hshort hcount
  obtain ⟨r, hget, hiff⟩ := hserved.get_iff hcount [97, 0]
  exact not_findable_prefixOps hv (hiff.mp (hclaim _ _ _ _ db _ r Dir.empty hshort hrun hget))

end MiniLevelDB
