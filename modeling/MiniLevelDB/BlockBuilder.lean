import MiniLevelDB.MemTable

/-! # Block builder

`table/block_builder.cc`, and the layout of the block it builds: `encodeEntries` are the entries
with their prefix compression, `entryOffset es j` is where the `j`-th one starts, and `restartsOf
es` the offsets of every sixteenth.  `finish_addAll` says that the builder writes this layout. -/

namespace MiniLevelDB

def kRestartInterval : ℕ := 16

/-- The loop that counts the bytes two keys share. -/
def commonPrefix : Bytes → Bytes → ℕ
  | x :: xs, y :: ys => if x = y then commonPrefix xs ys + 1 else 0
  | _, _ => 0

/-- One entry: the three lengths, the part of the key that is not shared, the value. -/
def entryBytes (shared : ℕ) (key value : Bytes) : Bytes :=
  putVarint32 shared ++ (putVarint32 (key.length - shared) ++ (putVarint32 value.length ++
    (key.drop shared ++ value)))

structure BlockBuilder where
  buffer : Bytes
  last_key : Bytes
  restarts : List ℕ
  counter : ℕ

namespace BlockBuilder

/-- `BlockBuilder()`, `Reset`. -/
def empty : BlockBuilder := ⟨[], [], [], 0⟩

/-- `Add`. -/
def add (b : BlockBuilder) (key value : Bytes) : BlockBuilder :=
  let restarts :=
    if b.counter = 0 then b.restarts ++ [b.buffer.length % 2 ^ 32] else b.restarts
  let shared := if b.counter > 0 then commonPrefix key b.last_key else 0
  let counter := b.counter + 1
  { buffer := b.buffer ++ entryBytes shared key value
    last_key := key
    restarts := restarts
    counter := if counter ≥ kRestartInterval then 0 else counter }

/-- `Finish`: the block contents. -/
def finish (b : BlockBuilder) : Bytes :=
  b.buffer ++ b.restarts.flatMap encodeFixed32 ++ encodeFixed32 b.restarts.length

/-- `CurrentSizeEstimate`. -/
def currentSizeEstimate (b : BlockBuilder) : ℕ := b.buffer.length + 4 + b.restarts.length * 4

/-- Entries added one after the other. -/
def addAll (b : BlockBuilder) (es : List Entry) : BlockBuilder :=
  es.foldl (fun b e => b.add e.1 e.2) b

end BlockBuilder

/-! ### Layout -/

/-- The bytes the `i`-th entry shares with the key before it; none at a restart point. -/
def sharedAt (i : ℕ) (prev key : Bytes) : ℕ :=
  if i % kRestartInterval = 0 then 0 else commonPrefix key prev

/-- The entries from the `i`-th on, behind the key `prev`. -/
def encodeEntries : ℕ → Bytes → List Entry → Bytes
  | _, _, [] => []
  | i, prev, e :: es => entryBytes (sharedAt i prev e.1) e.1 e.2 ++ encodeEntries (i + 1) e.1 es

/-- The key before the entries that follow `es`. -/
def lastKey (prev : Bytes) (es : List Entry) : Bytes := es.foldl (fun _ e => e.1) prev

/-- Where the `j`-th entry starts. -/
def entryOffset (es : List Entry) (j : ℕ) : ℕ := (encodeEntries 0 [] (es.take j)).length

/-- The number of restart points of `n` entries. -/
def restartCount (n : ℕ) : ℕ := (n + (kRestartInterval - 1)) / kRestartInterval

/-- The offsets of the restart points. -/
def restartsOf (es : List Entry) : List ℕ :=
  (List.range (restartCount es.length)).map fun m => entryOffset es (kRestartInterval * m)

/-- The contents of the block of `es`. -/
def blockContents (es : List Entry) : Bytes :=
  encodeEntries 0 [] es ++ (restartsOf es).flatMap encodeFixed32 ++
    encodeFixed32 (restartCount es.length)

theorem commonPrefix_le (key prev : Bytes) :
    commonPrefix key prev ≤ key.length ∧ commonPrefix key prev ≤ prev.length ∧
      key.take (commonPrefix key prev) = prev.take (commonPrefix key prev) := by
  induction key generalizing prev with
  | nil => cases prev <;> simp [commonPrefix]
  | cons x xs ih =>
      cases prev with
      | nil => simp [commonPrefix]
      | cons y ys =>
          rw [commonPrefix]
          split
          · rename_i h
            obtain ⟨h1, h2, h3⟩ := ih ys
            simp [h, h1, h2, h3]
          · simp

@[simp] theorem lastKey_append (prev : Bytes) (es : List Entry) (e : Entry) :
    lastKey prev (es ++ [e]) = e.1 := by
  simp [lastKey]

theorem encodeEntries_append (i : ℕ) (prev : Bytes) (es fs : List Entry) :
    encodeEntries i prev (es ++ fs) =
      encodeEntries i prev es ++ encodeEntries (i + es.length) (lastKey prev es) fs := by
  induction es generalizing i prev with
  | nil => rfl
  | cons e es ih =>
      simp only [List.cons_append, encodeEntries, ih, List.append_assoc, List.length_cons]
      rw [show i + 1 + es.length = i + (es.length + 1) by omega]
      rfl

/-- The entries before the `j`-th, the `j`-th, and the others. -/
theorem encodeEntries_split {es : List Entry} {j : ℕ} (h : j < es.length) :
    encodeEntries 0 [] es = encodeEntries 0 [] (es.take j) ++
      (entryBytes (sharedAt j (lastKey [] (es.take j)) es[j].1) es[j].1 es[j].2 ++
        encodeEntries (j + 1) es[j].1 (es.drop (j + 1))) := by
  have hsplit : es = es.take j ++ es[j] :: es.drop (j + 1) := by
    rw [← List.drop_eq_getElem_cons h, List.take_append_drop]
  conv_lhs => rw [hsplit, encodeEntries_append, encodeEntries]
  rw [List.length_take_of_le h.le, Nat.zero_add]

theorem entryOffset_append_of_le {es : List Entry} {j : ℕ} (h : j ≤ es.length) (fs : List Entry) :
    entryOffset (es ++ fs) j = entryOffset es j := by
  rw [entryOffset, entryOffset, List.take_append_of_le_length h]

theorem entryOffset_length (es : List Entry) :
    entryOffset es es.length = (encodeEntries 0 [] es).length := by
  rw [entryOffset, List.take_length]

theorem entryOffset_succ {es : List Entry} {j : ℕ} (h : j < es.length) :
    entryOffset es (j + 1) = entryOffset es j +
      (entryBytes (sharedAt j (lastKey [] (es.take j)) es[j].1) es[j].1 es[j].2).length := by
  rw [entryOffset, List.take_succ_eq_append_getElem h, encodeEntries_append, List.length_append,
    List.length_take_of_le h.le, Nat.zero_add, encodeEntries, encodeEntries, List.append_nil]
  rfl

theorem entryOffset_le {es : List Entry} {j : ℕ} :
    entryOffset es j ≤ (encodeEntries 0 [] es).length := by
  conv_rhs => rw [← List.take_append_drop j es, encodeEntries_append, List.length_append]
  exact Nat.le_add_right _ _

theorem restartCount_succ (n : ℕ) :
    restartCount (n + 1) = restartCount n + if n % kRestartInterval = 0 then 1 else 0 := by
  unfold restartCount kRestartInterval
  split <;> omega

theorem restartsOf_append (es : List Entry) (e : Entry) :
    restartsOf (es ++ [e]) = restartsOf es ++
      if es.length % kRestartInterval = 0 then [(encodeEntries 0 [] es).length] else [] := by
  have hmap : (List.range (restartCount es.length)).map
        (fun m => entryOffset (es ++ [e]) (kRestartInterval * m)) = restartsOf es := by
    refine List.map_congr_left fun m hm => entryOffset_append_of_le ?_ _
    have := List.mem_range.mp hm
    unfold restartCount kRestartInterval at *
    omega
  rw [restartsOf, List.length_append, List.length_singleton, restartCount_succ]
  split
  · rename_i h
    have hlast : kRestartInterval * restartCount es.length = es.length := by
      unfold restartCount kRestartInterval at *
      omega
    rw [List.range_succ, List.map_append, hmap, List.map_singleton, hlast,
      entryOffset_append_of_le (le_refl _), entryOffset_length]
  · rw [Nat.add_zero, hmap, List.append_nil]

/-! ### The builder -/

namespace BlockBuilder

theorem addAll_append (b : BlockBuilder) (es : List Entry) (e : Entry) :
    b.addAll (es ++ [e]) = (b.addAll es).add e.1 e.2 := by
  simp [addAll]

/-- What the builder holds after `es`. -/
theorem addAll_eq (es : List Entry) :
    empty.addAll es = ⟨encodeEntries 0 [] es, lastKey [] es, (restartsOf es).map (· % 2 ^ 32),
      es.length % kRestartInterval⟩ := by
  induction es using List.reverseRecOn with
  | nil => rfl
  | append_singleton es e ih =>
      rw [addAll_append, ih, add, encodeEntries_append, lastKey_append, restartsOf_append]
      simp only [encodeEntries, List.append_nil, Nat.zero_add, sharedAt, List.length_append,
        List.length_singleton, List.map_append]
      have hmod : (if es.length % kRestartInterval + 1 ≥ kRestartInterval then 0
          else es.length % kRestartInterval + 1) = (es.length + 1) % kRestartInterval := by
        unfold kRestartInterval
        split <;> omega
      rw [hmod]
      by_cases h : es.length % kRestartInterval = 0
      · simp [h]
      · simp [h, Nat.pos_of_ne_zero h]

/-- **The builder writes the layout**; a restart offset is stored in 32 bits. -/
theorem finish_addAll (es : List Entry) : (empty.addAll es).finish = blockContents es := by
  have hmod : ((restartsOf es).map (· % 2 ^ 32)).flatMap encodeFixed32 =
      (restartsOf es).flatMap encodeFixed32 := by
    rw [List.flatMap_map]
    exact congrArg (List.flatMap · (restartsOf es)) (funext fun o => encodeFixed_mod 4 o)
  rw [addAll_eq, finish]
  simp only [hmod, blockContents]
  rw [restartsOf, List.length_map, List.length_map, List.length_range]

end BlockBuilder
end MiniLevelDB
