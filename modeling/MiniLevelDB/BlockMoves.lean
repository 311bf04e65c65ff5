import MiniLevelDB.BlockLayout

/-! # The iterator of a block, read by read

On contents no builder has made `Seek` need not end, so its result says too little about what
happens on the way.  Here a call is cut at its calls of `DecodeEntry`: `start` runs it to the first
of them and `resume` from each of them to the next.  What the functions of `Block` return is what
these steps come to (`result_of_reads`), and a fault on the way is the fault of the call
(`result_of_fault`). -/

namespace MiniLevelDB
namespace Block

/-- The calls on an iterator that move it. -/
inductive Call
  | seekToFirst
  | seek (target : Bytes)
  | next

/-- The call of `DecodeEntry` an iterator is about to make. -/
inductive Pending
  | seekToFirst
  | next
  | bisect (target : Bytes) (left mid right : ℕ)
  | land (target : Bytes)
  | scan (target : Bytes)

/-- A moment of an iterator: at rest, or about to decode the entry at `current`. -/
abbrev Moment := Option Pending × Iterator

variable (b : Block)

/-- `Seek` at the condition of the bisection. -/
def bisect (target : Bytes) (left right : ℕ) (it : Iterator) : Except Fault Moment :=
  if left < right then do
    let mid := (left + right + 1) % 2 ^ 32 / 2
    let o ← b.restart mid
    return (some (.bisect target left mid right), { it with current := o })
  else do
    let o ← b.restart left
    return (some (.land target), { it with restart_index := left, current := o })

/-- `Seek` at the condition of the scan. -/
def scan (target : Bytes) (it : Iterator) : Moment :=
  if it.valid ∧ Slice.compare it.key target < 0 then (some (.scan target), it) else (none, it)

/-- A call up to its first call of `DecodeEntry`. -/
def start : Call → Iterator → Except Fault Moment
  | .seekToFirst, it =>
      match b.restarts with
      | [] => .ok (none, { it with valid := false })
      | o :: _ => .ok (some .seekToFirst, { it with restart_index := 0, current := o })
  | .seek target, it =>
      if b.restarts = [] then .ok (none, { it with valid := false })
      else b.bisect target 0 (b.restarts.length - 1) it
  | .next, it => .ok (if it.valid then (some .next, it) else (none, it))

/-- A call from the return of `DecodeEntry` up to the next one. -/
def resume : Pending → Iterator → Except Fault Moment
  | .seekToFirst, it => .ok (none, it)
  | .next, it => .ok (none, b.advanceRestart it)
  | .bisect target left mid right, it =>
      if Slice.compare it.key target < 0 then b.bisect target mid right it
      else b.bisect target left ((mid + 2 ^ 32 - 1) % 2 ^ 32) it
  | .land target, it => .ok (scan target it)
  | .scan target, it => .ok (scan target (b.advanceRestart it))

/-- One call of `DecodeEntry`, and what follows it. -/
def Read (m m' : Moment) : Prop :=
  ∃ p it it', m = (some p, it) ∧ b.decodeEntry it = .ok it' ∧ b.resume p it' = .ok m'

/-- The moments of an iterator that stood at `it` and has begun the calls of a list. -/
inductive Met (it : Iterator) : List Call → Moment → Prop
  | new : Met it [] (none, it)
  | call {made : List Call} {it' : Iterator} {m : Moment} (c : Call) :
      Met it made (none, it') → b.start c it' = .ok m → Met it (made ++ [c]) m
  | read {made : List Call} {m m' : Moment} : Met it made m → b.Read m m' → Met it made m'

/-! ### The steps are those of the functions -/

/-- What a call returns. -/
def result : Call → Iterator → Exec Iterator
  | .seekToFirst, it => Exec.ofExcept (b.seekToFirst it)
  | .seek target, it => b.seek target it
  | .next, it => Exec.ofExcept (b.next it)

/-- `Seek` behind the bisection. -/
def landing (target : Bytes) (left : ℕ) (it : Iterator) : Exec Iterator := do
  let o ← Exec.ofExcept (b.restart left)
  let it ← Exec.ofExcept (b.decodeEntry { it with restart_index := left, current := o })
  b.seekScan target it

/-- `Seek` from the bisection on. -/
def bisecting (target : Bytes) (left right : ℕ) (it : Iterator) : Exec Iterator := do
  let (it, left) ← b.seekRestart target it left right
  b.landing target left it

/-- What a call returns that has come to a moment. -/
def finish : Moment → Exec Iterator
  | (none, it) => pure it
  | (some .seekToFirst, it) => Exec.ofExcept (b.decodeEntry it)
  | (some .next, it) => do
      let it ← Exec.ofExcept (b.decodeEntry it)
      return b.advanceRestart it
  | (some (.bisect target left mid right), it) => do
      let it ← Exec.ofExcept (b.decodeEntry it)
      if Slice.compare it.key target < 0 then b.bisecting target mid right it
      else b.bisecting target left ((mid + 2 ^ 32 - 1) % 2 ^ 32) it
  | (some (.land target), it) => do
      let it ← Exec.ofExcept (b.decodeEntry it)
      b.seekScan target it
  | (some (.scan target), it) => do
      let it ← Exec.ofExcept (b.decodeEntry it)
      b.seekScan target (b.advanceRestart it)

variable {b}

@[simp] theorem ofExcept_ok {α : Type} (a : α) : (Exec.ofExcept (.ok a) : Exec α) = pure a := rfl

@[simp] theorem ofExcept_error {α : Type} (e : Fault) : (Exec.ofExcept (.error e) : Exec α) = throw e :=
  rfl

theorem finish_scan (target : Bytes) (it : Iterator) :
    b.finish (scan target it) = b.seekScan target it := by
  rw [seekScan, scan]
  split_ifs with h
  · simp only [finish, next, h.1]
    cases b.decodeEntry it <;> rfl
  · rfl

theorem bisect_ok {target : Bytes} {left right : ℕ} {it : Iterator} {m : Moment}
    (h : b.bisect target left right it = .ok m) :
    b.bisecting target left right it = b.finish m := by
  rw [bisecting, seekRestart]
  unfold bisect at h
  split_ifs at h ⊢ with hlt
  · dsimp only at h ⊢
    cases ho : b.restart ((left + right + 1) % 2 ^ 32 / 2) with
    | error e => rw [ho] at h; cases h
    | ok o =>
        rw [ho] at h
        cases h
        simp only [finish, ofExcept_ok, pure_bind, bind_assoc]
        refine bind_congr fun it' => ?_
        split_ifs <;> rfl
  · cases ho : b.restart left with
    | error e => rw [ho] at h; cases h
    | ok o =>
        rw [ho] at h
        cases h
        simp only [finish, landing, ho, ofExcept_ok, pure_bind]

theorem start_ok {c : Call} {it : Iterator} {m : Moment} (h : b.start c it = .ok m) :
    b.result c it = b.finish m := by
  cases c with
  | seekToFirst =>
      simp only [start] at h
      simp only [result, seekToFirst]
      cases hr : b.restarts with
      | nil =>
          rw [hr] at h
          cases h
          rfl
      | cons o os =>
          rw [hr] at h
          cases h
          rfl
  | next =>
      cases h
      simp only [result, next]
      cases hv : it.valid with
      | false => rfl
      | true =>
          simp only [finish, Bool.not_true, Bool.false_eq_true, if_true, if_false]
          cases b.decodeEntry it <;> rfl
  | seek target =>
      unfold start at h
      unfold result seek
      split_ifs at h ⊢ with hr
      · cases h
        rfl
      · exact bisect_ok h

theorem resume_ok {p : Pending} {it it' : Iterator} {m : Moment} (hd : b.decodeEntry it = .ok it')
    (h : b.resume p it' = .ok m) : b.finish (some p, it) = b.finish m := by
  cases p with
  | seekToFirst =>
      cases h
      simp only [finish, hd, ofExcept_ok]
  | next =>
      cases h
      simp only [finish, hd, ofExcept_ok, pure_bind]
  | bisect target left mid right =>
      simp only [finish, hd, ofExcept_ok, pure_bind]
      simp only [resume] at h
      split_ifs at h ⊢ with hlt
      · exact bisect_ok h
      · exact bisect_ok h
  | land target =>
      cases h
      simp only [finish, hd, ofExcept_ok, pure_bind]
      exact (finish_scan target it').symm
  | scan target =>
      cases h
      simp only [finish, hd, ofExcept_ok, pure_bind]
      exact (finish_scan target _).symm

theorem finish_reads {m m' : Moment} (h : Relation.ReflTransGen b.Read m m') :
    b.finish m = b.finish m' := by
  induction h with
  | refl => rfl
  | tail _ hread ih =>
      obtain ⟨p, it, it', rfl, hd, hr⟩ := hread
      exact ih.trans (resume_ok hd hr)

/-- A call whose reads end returns the iterator they end with. -/
theorem result_of_reads {c : Call} {it it' : Iterator} {m : Moment} (hs : b.start c it = .ok m)
    (h : Relation.ReflTransGen b.Read m (none, it')) : b.result c it = pure it' :=
  (start_ok hs).trans (finish_reads h)

theorem finish_fault {p : Pending} {it : Iterator} {e : Fault} (h : b.decodeEntry it = .error e) :
    b.finish (some p, it) = throw e := by
  cases p <;> simp only [finish, h] <;> rfl

/-- A call one of whose reads faults is a fault. -/
theorem result_of_fault {c : Call} {it it' : Iterator} {m : Moment} {p : Pending} {e : Fault}
    (hs : b.start c it = .ok m) (h : Relation.ReflTransGen b.Read m (some p, it'))
    (hd : b.decodeEntry it' = .error e) : b.result c it = throw e :=
  ((start_ok hs).trans (finish_reads h)).trans (finish_fault hd)

end Block
end MiniLevelDB
