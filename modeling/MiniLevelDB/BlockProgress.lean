import MiniLevelDB.BlockSafety

/-! # Whether the iterator of a block comes to an end

`DecodeEntry` moves `current_` on by the size of the entry as a number of 32 bits.  Where that sum
does not wrap every decoded entry lies strictly before the next one (`movesForward_iff`), and then
`Seek` ends and `Next` runs out of entries (`ends_of_advancing`). -/

namespace MiniLevelDB
namespace Block

variable (b : Block)

/-- The entry at an offset has a size that is not zero as a number of 32 bits, and the offset behind
it is one. -/
def EntryAdvances (p : ℕ) : Prop :=
  match decodeLengths (b.area p) with
  | none => True
  | some (_, unshared, value_len, input) =>
      unshared ≤ input.length →
        0 < (b.data_size - (input.length - unshared) - p + value_len) % 2 ^ 32 ∧
          p + (b.data_size - (input.length - unshared) - p + value_len) % 2 ^ 32 < 2 ^ 32

/-- The entry an iterator is about to decode takes it forward. -/
def Advancing (m : Moment) : Prop := ∀ p it, m = (some p, it) → b.EntryAdvances it.current

/-- An entry decoded moves `current` strictly forward. -/
def MovesForward (m : Moment) : Prop :=
  ∀ p it it', m = (some p, it) → b.decodeEntry it = .ok it' → it'.valid = true →
    it.current < it'.current

/-- `Next` a number of times. -/
def nexts : ℕ → Iterator → Except Fault Iterator
  | 0, it => .ok it
  | n + 1, it => do
      let it ← b.next it
      nexts n it

/-- `Seek` ends, and so does the walk that begins with `SeekToFirst`. -/
def Ends (it : Iterator) (target : Bytes) : Prop :=
  (∃ it', b.seek target it = pure it') ∧
    ∃ n it', (do
      let it ← b.seekToFirst it
      b.nexts n it) = .ok it' ∧ it'.valid = false

/-- The moments of `Seek(target)`, and of `SeekToFirst` with any number of `Next` behind it. -/
def OnTheWay (it : Iterator) (target : Bytes) (m : Moment) : Prop :=
  b.Met it [.seek target] m ∨ ∃ n, b.Met it (.seekToFirst :: List.replicate n .next) m

variable {b}

/-! ### One entry -/

theorem movesForward_iff {m : Moment} (h : m.2.current < 2 ^ 32) :
    b.MovesForward m ↔ b.Advancing m := by
  constructor
  · rintro hm p it rfl
    unfold EntryAdvances
    split
    · trivial
    · next shared unshared value_len input hd =>
        intro hle
        have hok : b.decodeEntry it = .ok (b.decoded it shared unshared value_len input) := by
          rw [decodeEntry_eq, hd]
          exact if_neg (not_lt.mpr hle)
        have hlt : it.current < (b.decoded it shared unshared value_len input).current :=
          hm p it _ rfl hok rfl
        dsimp only [decoded] at h hlt
        omega
  · rintro hm p it it' rfl hd hvalid
    obtain rfl | ⟨shared, unshared, value_len, input, hlen, hle, rfl⟩ := decodeEntry_ok hd
    · cases hvalid
    · have hadv := hm p it rfl
      unfold EntryAdvances at hadv
      rw [hlen] at hadv
      have hadv := hadv hle
      dsimp only [decoded] at h ⊢
      omega

theorem decodeEntry_current {it it' : Iterator} (hd : b.decodeEntry it = .ok it')
    (h : it.current < 2 ^ 32) : it'.current < 2 ^ 32 := by
  obtain rfl | ⟨shared, unshared, value_len, input, -, -, rfl⟩ := decodeEntry_ok hd
  · exact h
  · exact Nat.mod_lt _ (by norm_num)

/-- An entry is decoded only inside the entry area. -/
theorem current_lt_of_valid {it it' : Iterator} (hd : b.decodeEntry it = .ok it')
    (hv : it'.valid = true) : it.current < b.data_size := by
  obtain rfl | ⟨shared, unshared, value_len, input, hlen, -, -⟩ := decodeEntry_ok hd
  · cases hv
  · have := decodeLengths_area hlen
    omega

/-! ### Where an iterator stands -/

/-- The restart points and the iterator hold numbers of 32 bits. -/
theorem restart_lt (hos : ∀ o ∈ b.restarts, o < 2 ^ 32) {i o : ℕ} (h : b.restart i = .ok o) :
    o < 2 ^ 32 := by
  unfold restart at h
  split at h
  · next ho =>
      cases h
      exact hos _ (List.mem_of_getElem? ho)
  · cases h

/-- What `Seek` looks up next: a smaller stretch of the restart points, or the last one left. -/
theorem bisect_cases {target : Bytes} {left right : ℕ} {it : Iterator} {m : Moment}
    (h : b.bisect target left right it = .ok m) :
    (∃ o, left < right ∧ b.restart ((left + right + 1) % 2 ^ 32 / 2) = .ok o ∧
        m = (some (.bisect target left ((left + right + 1) % 2 ^ 32 / 2) right),
          { it with current := o })) ∨
      ∃ o, b.restart left = .ok o ∧
        m = (some (.land target), { it with restart_index := left, current := o }) := by
  unfold bisect at h
  split_ifs at h with hlt
  · dsimp only at h
    cases ho : b.restart ((left + right + 1) % 2 ^ 32 / 2) with
    | error e => rw [ho] at h; cases h
    | ok o =>
        rw [ho] at h
        cases h
        exact .inl ⟨o, hlt, rfl, rfl⟩
  · cases ho : b.restart left with
    | error e => rw [ho] at h; cases h
    | ok o =>
        rw [ho] at h
        cases h
        exact .inr ⟨o, rfl, rfl⟩

theorem bisect_current (hos : ∀ o ∈ b.restarts, o < 2 ^ 32) {target : Bytes} {left right : ℕ}
    {it : Iterator} {m : Moment} (h : b.bisect target left right it = .ok m) :
    m.2.current < 2 ^ 32 := by
  obtain ⟨o, -, ho, rfl⟩ | ⟨o, ho, rfl⟩ := bisect_cases h
  · exact restart_lt hos ho
  · exact restart_lt hos ho

theorem start_current (hos : ∀ o ∈ b.restarts, o < 2 ^ 32) {c : Call} {it : Iterator} {m : Moment}
    (h : b.start c it = .ok m) (hit : it.current < 2 ^ 32) : m.2.current < 2 ^ 32 := by
  cases c with
  | seekToFirst =>
      simp only [start] at h
      cases hr : b.restarts with
      | nil =>
          rw [hr] at h
          cases h
          exact hit
      | cons o os =>
          rw [hr] at h
          cases h
          exact hos o (by simp [hr])
  | seek target =>
      simp only [start] at h
      split_ifs at h with hr
      · cases h
        exact hit
      · exact bisect_current hos h
  | next =>
      cases h
      split_ifs
      · exact hit
      · exact hit

theorem scan_current (target : Bytes) (it : Iterator) : (scan target it).2.current = it.current := by
  unfold scan
  split_ifs
  · rfl
  · rfl

theorem read_current (hos : ∀ o ∈ b.restarts, o < 2 ^ 32) {m m' : Moment} (h : b.Read m m')
    (hm : m.2.current < 2 ^ 32) : m'.2.current < 2 ^ 32 := by
  obtain ⟨p, it, it', rfl, hd, hr⟩ := h
  have hit' := decodeEntry_current hd hm
  cases p with
  | seekToFirst =>
      cases hr
      exact hit'
  | next =>
      cases hr
      exact (advanceRestart_value it').2.2.2.symm ▸ hit'
  | bisect target left mid right =>
      simp only [resume] at hr
      split_ifs at hr
      · exact bisect_current hos hr
      · exact bisect_current hos hr
  | land target =>
      cases hr
      rwa [scan_current]
  | scan target =>
      cases hr
      rw [scan_current]
      exact (advanceRestart_value it').2.2.2.symm ▸ hit'

theorem Met.current_lt (hos : ∀ o ∈ b.restarts, o < 2 ^ 32) {it : Iterator} {made : List Call}
    {m : Moment} (h : b.Met it made m) (hit : it.current < 2 ^ 32) : m.2.current < 2 ^ 32 := by
  induction h with
  | new => exact hit
  | call c _ hs ih => exact start_current hos hs ih
  | read _ hread ih => exact read_current hos hread ih

/-! ### Seek -/

/-- The stretch of restart points of the bisection: it holds its middle, and no sum of it wraps. -/
def Narrow (b : Block) : Moment → Prop
  | (some (.bisect _ left mid right), _) => left < mid ∧ mid ≤ right ∧ right < b.restarts.length
  | _ => True

/-- How much a call has still to read, at most. -/
def remaining (b : Block) : Moment → ℕ
  | (none, _) => 0
  | (some .seekToFirst, _) => 1
  | (some .next, _) => 1
  | (some (.scan _), it) => b.data_size - it.current + 1
  | (some (.land _), _) => b.data_size + 2
  | (some (.bisect _ left _ right), _) => b.data_size + 3 + (right - left)

theorem bisect_narrow (hn : b.restarts.length ≤ 2 ^ 31) {target : Bytes} {left right : ℕ}
    {it : Iterator} {m : Moment} (h : b.bisect target left right it = .ok m)
    (hr : right < b.restarts.length) :
    b.Narrow m ∧ b.remaining m ≤ b.data_size + 3 + (right - left) := by
  obtain ⟨o, hlt, -, rfl⟩ | ⟨o, -, rfl⟩ := bisect_cases h
  · have hmid : (left + right + 1) % 2 ^ 32 = left + right + 1 := Nat.mod_eq_of_lt (by omega)
    rw [hmid]
    refine ⟨⟨?_, ?_, hr⟩, le_refl _⟩
    · omega
    · omega
  · refine ⟨trivial, ?_⟩
    simp only [remaining]
    omega

theorem scan_narrow (target : Bytes) (it : Iterator) :
    b.Narrow (scan target it) ∧ b.remaining (scan target it) ≤ b.data_size - it.current + 1 ∧
      (it.valid = false → b.remaining (scan target it) = 0) := by
  unfold scan
  split_ifs with h
  · exact ⟨trivial, le_refl _, fun hv => absurd h.1 (by simp [hv])⟩
  · exact ⟨trivial, Nat.zero_le _, fun _ => rfl⟩

/-- Each entry decoded leaves less to read. -/
theorem read_remaining (hn : b.restarts.length ≤ 2 ^ 31) {m m' : Moment} (h : b.Read m m')
    (hm : b.Narrow m) (hadv : b.MovesForward m) :
    b.Narrow m' ∧ b.remaining m' < b.remaining m := by
  obtain ⟨p, it, it', rfl, hd, hr⟩ := h
  cases p with
  | seekToFirst =>
      cases hr
      exact ⟨trivial, Nat.one_pos⟩
  | next =>
      cases hr
      exact ⟨trivial, Nat.one_pos⟩
  | bisect target left mid right =>
      obtain ⟨h1, h2, h3⟩ := hm
      simp only [resume] at hr
      split_ifs at hr
      · obtain ⟨h4, h5⟩ := bisect_narrow hn hr h3
        refine ⟨h4, h5.trans_lt ?_⟩
        change _ < b.data_size + 3 + (right - left)
        omega
      · have hmid : (mid + 2 ^ 32 - 1) % 2 ^ 32 = mid - 1 := by omega
        rw [hmid] at hr
        obtain ⟨h4, h5⟩ := bisect_narrow hn hr (by omega)
        refine ⟨h4, h5.trans_lt ?_⟩
        change _ < b.data_size + 3 + (right - left)
        omega
  | land target =>
      cases hr
      obtain ⟨h1, h2, -⟩ := @scan_narrow b target it'
      refine ⟨h1, h2.trans_lt ?_⟩
      change _ < b.data_size + 2
      omega
  | scan target =>
      cases hr
      obtain ⟨h1, h2, h3⟩ := @scan_narrow b target (b.advanceRestart it')
      obtain ⟨-, -, hvalid, hcur⟩ := @advanceRestart_value b it'
      refine ⟨h1, ?_⟩
      change _ < b.data_size - it.current + 1
      cases hv : it'.valid with
      | false =>
          rw [h3 (hvalid.trans hv)]
          exact Nat.succ_pos _
      | true =>
          have hlt := current_lt_of_valid hd hv
          have hfor : it.current < it'.current := hadv _ it it' rfl hd hv
          omega

/-- A call that can make each of its reads, and moves forward with each, comes to its end. -/
theorem reads_end (hn : b.restarts.length ≤ 2 ^ 31) (m : Moment) (hm : b.Narrow m)
    (hgo : ∀ m', Relation.ReflTransGen b.Read m m' →
      b.MovesForward m' ∧ ∀ p it, m' = (some p, it) → ∃ m'', b.Read m' m'') :
    ∃ it', Relation.ReflTransGen b.Read m (none, it') := by
  induction hk : b.remaining m using Nat.strong_induction_on generalizing m with
  | _ k ih =>
      obtain ⟨pending, it⟩ := m
      cases pending with
      | none => exact ⟨it, .refl⟩
      | some p =>
          obtain ⟨hadv, hnext⟩ := hgo _ .refl
          obtain ⟨m', hread⟩ := hnext p it rfl
          obtain ⟨hm', hlt⟩ := read_remaining hn hread hm hadv
          obtain ⟨it', hend⟩ := ih _ (hk ▸ hlt) m' hm'
            (fun m'' h => hgo m'' (.head hread h)) rfl
          exact ⟨it', .head hread hend⟩

theorem start_narrow (hn : b.restarts.length ≤ 2 ^ 31) {c : Call} {it : Iterator} {m : Moment}
    (h : b.start c it = .ok m) : b.Narrow m := by
  cases c with
  | seekToFirst =>
      simp only [start] at h
      cases hr : b.restarts with
      | nil =>
          rw [hr] at h
          cases h
          trivial
      | cons o os =>
          rw [hr] at h
          cases h
          trivial
  | seek target =>
      simp only [start] at h
      split_ifs at h with hr
      · cases h
        trivial
      · have hpos := List.length_pos_of_ne_nil hr
        exact (bisect_narrow hn h (Nat.sub_lt hpos Nat.one_pos)).1
  | next =>
      cases h
      split_ifs
      · trivial
      · trivial

theorem Met.reads {it : Iterator} {made : List Call} {m m' : Moment} (h : b.Met it made m)
    (hr : Relation.ReflTransGen b.Read m m') : b.Met it made m' := by
  induction hr with
  | refl => exact h
  | tail _ hread ih => exact ih.read hread

/-! ### The walk -/

theorem next_of_valid {it it' : Iterator} (hv : it.valid = true) (hd : b.decodeEntry it = .ok it') :
    b.next it = .ok (b.advanceRestart it') := by
  unfold next
  rw [hv, hd]
  rfl

/-- `Next` runs out of entries if every entry moves it forward. -/
theorem nexts_end {it : Iterator} (hgo : ∀ n m, b.Met it (.seekToFirst :: List.replicate n .next) m →
      b.MovesForward m ∧ ∀ p it', m = (some p, it') → ∃ it'', b.decodeEntry it' = .ok it'')
    (k : ℕ) (it₁ : Iterator) (hmet : b.Met it (.seekToFirst :: List.replicate k .next) (none, it₁)) :
    ∃ n it', b.nexts n it₁ = .ok it' ∧ it'.valid = false := by
  induction hj : b.data_size - it₁.current using Nat.strong_induction_on generalizing k it₁ with
  | _ j ih =>
      cases hv : it₁.valid with
      | false => exact ⟨0, it₁, rfl, hv⟩
      | true =>
          have hcall : b.Met it (.seekToFirst :: List.replicate (k + 1) .next) (some .next, it₁) := by
            rw [List.replicate_succ', ← List.cons_append]
            exact .call .next hmet (by rw [start, if_pos hv])
          obtain ⟨hadv, hread⟩ := hgo (k + 1) _ hcall
          obtain ⟨it₂, hd⟩ := hread _ _ rfl
          have hnext := next_of_valid hv hd
          obtain ⟨-, -, hvalid, hcur⟩ := @advanceRestart_value b it₂
          cases hv₂ : it₂.valid with
          | false =>
              refine ⟨1, b.advanceRestart it₂, ?_, hvalid.trans hv₂⟩
              rw [nexts, hnext]
              rfl
          | true =>
              have hlt := current_lt_of_valid hd hv₂
              have hfor : it₁.current < it₂.current := hadv _ it₁ it₂ rfl hd hv₂
              obtain ⟨n, it', h1, h2⟩ := ih _ (by omega) (k + 1) (b.advanceRestart it₂)
                (hcall.read ⟨_, it₁, it₂, rfl, hd, rfl⟩) rfl
              refine ⟨n + 1, it', ?_, h2⟩
              rw [nexts, hnext]
              exact h1

/-- Where every entry moves the iterator forward `Seek` ends, and so does the walk. -/
theorem ends_of_movesForward (hn : b.restarts.length ≤ 2 ^ 31) {it : Iterator} {target : Bytes}
    (hread : ∀ m, b.OnTheWay it target m → ∀ p it', m = (some p, it') →
      ∃ it'', b.decodeEntry it' = .ok it'')
    (hadv : ∀ m, b.OnTheWay it target m → b.MovesForward m) : b.Ends it target := by
  have hlen : b.restarts.length < 2 ^ 32 := by omega
  constructor
  · obtain ⟨m, hs, -, -⟩ := start_ranged hlen (.seek target) it
    have hmet : b.Met it [.seek target] m := .call (.seek target) .new hs
    obtain ⟨it', hend⟩ := reads_end hn m (start_narrow hn hs) fun m' hr => by
      have hm' := hmet.reads hr
      refine ⟨hadv m' (.inl hm'), ?_⟩
      rintro p it' rfl
      obtain ⟨it'', hd⟩ := hread _ (.inl hm') p it' rfl
      obtain ⟨m'', h1, -, -⟩ := @resume_ranged b hlen p it' it'' (hm'.ranged hlen)
      exact ⟨m'', p, it', it'', rfl, hd, h1⟩
    exact ⟨it', result_of_reads hs hend⟩
  · have hgo : ∀ n m, b.Met it (.seekToFirst :: List.replicate n .next) m →
        b.MovesForward m ∧ ∀ p it', m = (some p, it') → ∃ it'', b.decodeEntry it' = .ok it'' :=
      fun n m hm => ⟨hadv m (.inr ⟨n, hm⟩), hread m (.inr ⟨n, hm⟩)⟩
    obtain ⟨m, hs, -, -⟩ := start_ranged hlen .seekToFirst it
    have hmet : b.Met it [.seekToFirst] m := .call .seekToFirst .new hs
    simp only [start] at hs
    unfold seekToFirst
    cases hr : b.restarts with
    | nil => exact ⟨0, _, rfl, rfl⟩
    | cons o os =>
        rw [hr] at hs
        cases hs
        obtain ⟨it₁, hd⟩ := (hgo 0 _ hmet).2 _ _ rfl
        obtain ⟨n, it', h1, h2⟩ := nexts_end hgo 0 it₁ (hmet.read ⟨_, _, it₁, rfl, hd, rfl⟩)
        refine ⟨n, it', ?_, h2⟩
        dsimp only
        rw [hd]
        exact h1

/-- On contents whose reads stay inside, and with at most `2 ^ 31` restart points, `Seek` and the
walk end with each entry strictly before the next exactly if no sum of an offset and the size of an
entry wraps. -/
theorem ends_iff_advancing {contents : Bytes} {b : Block} (hb : Block.new contents = .ok b)
    {made : List Call} {it : Iterator} (hit : b.Met newIterator made (none, it)) (target : Bytes)
    (hread : ∀ m, b.OnTheWay it target m → ∀ p it', m = (some p, it') →
      ∃ it'', b.decodeEntry it' = .ok it'') :
    (b.Ends it target ∧ (∀ m, b.OnTheWay it target m → b.MovesForward m) →
        ∀ m, b.OnTheWay it target m → b.Advancing m) ∧
      (b.restarts.length ≤ 2 ^ 31 → (∀ m, b.OnTheWay it target m → b.Advancing m) →
        b.Ends it target ∧ ∀ m, b.OnTheWay it target m → b.MovesForward m) := by
  obtain ⟨-, -, -, hos⟩ := new_bounds hb
  have hcur : it.current < 2 ^ 32 := hit.current_lt hos (by norm_num [newIterator])
  have hiff : ∀ m, b.OnTheWay it target m → (b.MovesForward m ↔ b.Advancing m) := by
    rintro m (hm | ⟨n, hm⟩)
    · exact movesForward_iff (hm.current_lt hos hcur)
    · exact movesForward_iff (hm.current_lt hos hcur)
  constructor
  · rintro ⟨-, hmoves⟩ m hm
    exact (hiff m hm).mp (hmoves m hm)
  · intro hn hadv
    have hmoves : ∀ m, b.OnTheWay it target m → b.MovesForward m :=
      fun m hm => (hiff m hm).mpr (hadv m hm)
    exact ⟨ends_of_movesForward hn hread hmoves, hmoves⟩

theorem keyFits_of_lt (h : ∀ p < b.data_size, b.KeyFits p) (p : ℕ) : b.KeyFits p := by
  by_cases hp : p < b.data_size
  · exact h p hp
  · have hnil : b.area p = [] :=
      List.eq_nil_of_length_eq_zero (by have := @area_length_le b p; omega)
    unfold KeyFits
    rw [hnil]
    trivial

/-- A block of the one key `[7]`, with an empty value. -/
def oneKeyBlock : Bytes := [0, 1, 0, 7] ++ encodeFixed32 0 ++ encodeFixed32 1

theorem ends_iff_advancing_oneKeyBlock :
    let b : Block := ⟨oneKeyBlock, 4, [0]⟩
    (b.Ends newIterator [9] ∧ (∀ m, b.OnTheWay newIterator [9] m → b.MovesForward m) →
        ∀ m, b.OnTheWay newIterator [9] m → b.Advancing m) ∧
      (b.restarts.length ≤ 2 ^ 31 → (∀ m, b.OnTheWay newIterator [9] m → b.Advancing m) →
        b.Ends newIterator [9] ∧ ∀ m, b.OnTheWay newIterator [9] m → b.MovesForward m) :=
  @ends_iff_advancing oneKeyBlock _ rfl [] _ .new [9] fun _ _ _ it' _ =>
    (decodeEntry_ok_iff it').mpr (keyFits_of_lt (by decide) _)

/-- A block of one entry, with an empty key, whose size with its value is `2 ^ 32`. -/
def stuckBlock : Bytes := [0, 0, 249, 255, 255, 255, 15] ++ encodeFixed32 0 ++ encodeFixed32 1

/-- No read of it leaves the entry area, and `Next` stays at its entry. -/
theorem stuckBlock_never_ends :
    ∃ b, Block.new stuckBlock = .ok b ∧ (∀ it, ∃ it', b.decodeEntry it = .ok it') ∧
      ¬ b.Ends newIterator [] := by
  refine ⟨⟨stuckBlock, 7, [0]⟩, rfl,
    fun it => (decodeEntry_ok_iff it).mpr (keyFits_of_lt (by decide) _), ?_⟩
  rintro ⟨-, n, it', hend, hv⟩
  have hstays : ∀ n, Block.nexts ⟨stuckBlock, 7, [0]⟩ n ⟨0, 0, [], 7, 2 ^ 32 - 7, true⟩ =
      .ok ⟨0, 0, [], 7, 2 ^ 32 - 7, true⟩ := by
    intro n
    induction n with
    | zero => rfl
    | succ n ih =>
        have hd : Block.decodeEntry ⟨stuckBlock, 7, [0]⟩ ⟨0, 0, [], 7, 2 ^ 32 - 7, true⟩ =
            .ok ⟨0, 0, [], 7, 2 ^ 32 - 7, true⟩ := rfl
        rw [nexts, next_of_valid rfl hd, advanceRestart, dif_neg (by decide)]
        exact ih
  cases (hstays n).symm.trans hend
  cases hv

end Block
end MiniLevelDB
