import MiniLevelDB.Lib.Ranges
import MiniLevelDB.MemTable

/-! # The blocks of an arena

`util/arena.cc` with the blocks the arena owns and the addresses it returns.  The address that
`new char[n]` returns is an argument of the calls.  `Good` ties the current block to what was returned;
every call keeps it unless the slop carries the size of an `AllocateAligned` past 64 bits
(`good_perform`), so it holds in every run (`reach_good`). -/

namespace MiniLevelDB

open Memory

/-- `Arena` with `blocks_`, and the size of each block. -/
structure OwningArena extends Arena where
  blocks : List Range
deriving DecidableEq, Repr

namespace OwningArena

/-- `kBlockSize` of `util/arena.cc`. -/
def kBlockSize : ℕ := 4096

def empty : OwningArena := ⟨Arena.empty, []⟩

/-- `AllocateNewBlock`, where `new char[block_bytes]` returns `p`. -/
def allocateNewBlock (a : OwningArena) (block_bytes p : ℕ) : ℕ × OwningArena :=
  (p, { a with
    blocks := a.blocks ++ [⟨p, block_bytes⟩]
    blocks_bytes := (a.blocks_bytes + block_bytes) % 2 ^ 64 })

/-- `Allocate`. -/
def allocate (a : OwningArena) (bytes p : ℕ) : ℕ × OwningArena :=
  if bytes ≤ a.avail then (a.curr, { a with curr := a.curr + bytes, avail := a.avail - bytes })
  else if bytes > kBlockSize / 4 then a.allocateNewBlock bytes p
  else
    let (curr, a) := a.allocateNewBlock kBlockSize p
    (curr, { a with curr := curr + bytes, avail := kBlockSize - bytes })

/-- The bytes up to the next aligned address. -/
def slopOf (curr : ℕ) : ℕ :=
  let align := 8
  let current_mod := curr &&& (align - 1)
  if current_mod = 0 then 0 else align - current_mod

/-- `AllocateAligned`. -/
def allocateAligned (a : OwningArena) (bytes p : ℕ) : ℕ × OwningArena :=
  let slop := slopOf a.curr
  let needed := (bytes + slop) % 2 ^ 64
  if needed ≤ a.avail then
    (a.curr + slop, { a with curr := a.curr + needed, avail := a.avail - needed })
  else a.allocateNewBlock needed p

/-- The arena of the memtable is this one without its blocks. -/
theorem toArena_allocateAligned (a : OwningArena) {bytes p : ℕ} (hbytes : bytes + slopOf a.curr < 2 ^ 64)
    (husage : a.blocks_bytes + (bytes + slopOf a.curr) < 2 ^ 64) :
    (a.allocateAligned bytes p).2.toArena = a.toArena.allocateAligned bytes := by
  have hneeded : (bytes + slopOf a.curr) % 2 ^ 64 = bytes + slopOf a.curr := Nat.mod_eq_of_lt hbytes
  have harena : a.toArena.allocateAligned bytes =
      if bytes + slopOf a.curr ≤ a.avail then
        { a.toArena with
          curr := a.curr + (bytes + slopOf a.curr), avail := a.avail - (bytes + slopOf a.curr) }
      else a.toArena.allocateNewBlock (bytes + slopOf a.curr) := rfl
  rw [harena, allocateAligned]
  simp only [hneeded]
  split
  · rfl
  · rw [allocateNewBlock, Arena.allocateNewBlock, Nat.mod_eq_of_lt husage]

/-! ### Calls -/

/-- A call and its size. -/
inductive ArenaCall where
  | allocate (bytes : ℕ)
  | allocateAligned (bytes : ℕ)
deriving DecidableEq, Repr

namespace ArenaCall

def bytes : ArenaCall → ℕ
  | .allocate bytes => bytes
  | .allocateAligned bytes => bytes

def aligned : ArenaCall → Bool
  | .allocate _ => false
  | .allocateAligned _ => true

end ArenaCall

/-- The address a call returns, and the arena behind it. -/
def perform (a : OwningArena) (p : ℕ) : ArenaCall → ℕ × OwningArena
  | .allocate bytes => a.allocate bytes p
  | .allocateAligned bytes => a.allocateAligned bytes p

/-- What `new char[n]` promises: an aligned region of the address space, not null, and disjoint from the
regions given before. -/
def NewRegion (blocks : List Range) (r : Range) : Prop :=
  0 < r.start ∧ 8 ∣ r.start ∧ r.stop ≤ 2 ^ 64 ∧ ∀ b ∈ blocks, b.Apart r

/-- The block a call has taken, if it has taken one, is such a region. -/
def Granted (a a' : OwningArena) : Prop := ∀ r, a'.blocks = a.blocks ++ [r] → NewRegion a.blocks r

/-- The runs of an arena, with the calls made and the addresses they returned. -/
inductive Reach (P : OwningArena → ArenaCall → Prop) : OwningArena → List (ArenaCall × ℕ) → Prop
  | start : Reach P empty []
  | step {a : OwningArena} {made : List (ArenaCall × ℕ)} {call : ArenaCall} {p : ℕ} :
      Reach P a made → P a call → 0 < call.bytes → call.bytes < 2 ^ 64 →
      Granted a (a.perform p call).2 →
      Reach P (a.perform p call).2 (made ++ [(call, (a.perform p call).1)])

/-- The range a call has returned. -/
def rangeOf (m : ArenaCall × ℕ) : Range := ⟨m.2, m.1.bytes⟩

/-- What an arena has given out. -/
structure Sound (a : OwningArena) (made : List (ArenaCall × ℕ)) : Prop where
  inside : ∀ m ∈ made, ∃ b ∈ a.blocks, (rangeOf m).Within b
  apart : (made.map rangeOf).Pairwise Range.Apart
  aligned : ∀ m ∈ made, m.1.aligned = true → 8 ∣ m.2
  usage : a.memoryUsage = (a.blocks.map Range.size).sum
  requested : (made.map fun m => m.1.bytes).sum ≤ a.memoryUsage

/-- The size with the slop is a number of 64 bits. -/
def Unwrapped (a : OwningArena) : ArenaCall → Prop
  | .allocate _ => True
  | .allocateAligned bytes => bytes + slopOf a.curr < 2 ^ 64

instance (a : OwningArena) (call : ArenaCall) : Decidable (Unwrapped a call) := by
  cases call
  · exact inferInstanceAs (Decidable True)
  · exact inferInstanceAs (Decidable (_ < _))

/-! ### The invariant -/

/-- The bytes of the current block that are free. -/
def free (a : OwningArena) : Range := ⟨a.curr, a.avail⟩

/-- The address space without its null. -/
def space : Range := ⟨1, 2 ^ 64 - 1⟩

/-- The free bytes lie in a block, apart from everything given out. -/
structure Good (a : OwningArena) (made : List (ArenaCall × ℕ)) : Prop extends Sound a made where
  blocks_apart : a.blocks.Pairwise Range.Apart
  in_space : ∀ b ∈ a.blocks, b.Within space
  free_within : (a.curr = 0 ∧ a.avail = 0) ∨ ∃ b ∈ a.blocks, a.free.Within b
  free_apart : ∀ m ∈ made, (rangeOf m).Apart a.free
  room : (made.map fun m => m.1.bytes).sum + a.avail ≤ (a.blocks.map Range.size).sum

theorem good_empty : Good empty [] where
  inside := fun _ h => by cases h
  apart := .nil
  aligned := fun _ h => by cases h
  usage := rfl
  requested := le_refl 0
  blocks_apart := .nil
  in_space := fun _ h => by cases h
  free_within := Or.inl ⟨rfl, rfl⟩
  free_apart := fun _ h => by cases h
  room := le_refl 0

section

variable {a : OwningArena} {made : List (ArenaCall × ℕ)} {call : ArenaCall} {p n : ℕ}

theorem slopOf_eq (curr : ℕ) : slopOf curr < 8 ∧ 8 ∣ curr + slopOf curr := by
  have hmod : curr &&& (8 - 1) = curr % 8 := Nat.and_two_pow_sub_one_eq_mod curr 3
  unfold slopOf
  dsimp only
  rw [hmod]
  split
  · omega
  · omega

theorem NewRegion.within_space {blocks : List Range} {r : Range} (h : NewRegion blocks r) :
    r.Within space := by
  obtain ⟨hpos, -, hstop, -⟩ := h
  exact ⟨hpos, hstop⟩

theorem sum_bytes_concat (made : List (ArenaCall × ℕ)) (call : ArenaCall) (x : ℕ) :
    ((made ++ [(call, x)]).map fun m => m.1.bytes).sum =
      (made.map fun m => m.1.bytes).sum + call.bytes := by
  rw [List.map_append, List.sum_append, List.map_singleton, List.sum_singleton]

theorem sum_size_concat (blocks : List Range) (r : Range) :
    ((blocks ++ [r]).map Range.size).sum = (blocks.map Range.size).sum + r.size := by
  rw [List.map_append, List.sum_append, List.map_singleton, List.sum_singleton]

/-- One more range that is apart from the others. -/
theorem apart_concat {rs : List Range} {r : Range} (h : rs.Pairwise Range.Apart)
    (hr : ∀ s ∈ rs, s.Apart r) : (rs ++ [r]).Pairwise Range.Apart := by
  rw [List.pairwise_append]
  refine ⟨h, List.pairwise_singleton _ _, ?_⟩
  intro s hs r' hr'
  obtain rfl := List.mem_singleton.mp hr'
  exact hr s hs

/-- The bytes are cut from the front of the free ones, `slop` behind it. -/
theorem Good.take (h : Good a made) {slop : ℕ} (hpos : 0 < call.bytes)
    (hfit : call.bytes + slop ≤ a.avail) (haligned : call.aligned = true → 8 ∣ a.curr + slop) :
    Good { a with curr := a.curr + (call.bytes + slop), avail := a.avail - (call.bytes + slop) }
      (made ++ [(call, a.curr + slop)]) := by
  have hin : (rangeOf (call, a.curr + slop)).Within a.free := by
    constructor
    · exact Nat.le_add_right _ _
    · change a.curr + slop + call.bytes ≤ a.curr + a.avail
      omega
  have hrest : (free { a with
      curr := a.curr + (call.bytes + slop), avail := a.avail - (call.bytes + slop) }).Within a.free := by
    constructor
    · exact Nat.le_add_right _ _
    · change a.curr + (call.bytes + slop) + (a.avail - (call.bytes + slop)) ≤ a.curr + a.avail
      omega
  obtain ⟨b, hb, hfree⟩ : ∃ b ∈ a.blocks, a.free.Within b := by
    refine h.free_within.resolve_left ?_
    rintro ⟨-, havail⟩
    omega
  have hroom := h.room
  refine ⟨⟨?_, ?_, ?_, h.usage, ?_⟩, h.blocks_apart, h.in_space, ?_, ?_, ?_⟩
  · intro m hm
    rcases List.mem_append.mp hm with hm | hm
    · exact h.inside m hm
    · obtain rfl := List.mem_singleton.mp hm
      exact ⟨b, hb, hin.trans hfree⟩
  · rw [List.map_append]
    apply apart_concat h.apart
    intro s hs
    obtain ⟨m, hm, rfl⟩ := List.mem_map.mp hs
    exact (h.free_apart m hm).mono (.refl _) hin
  · intro m hm hmaligned
    rcases List.mem_append.mp hm with hm | hm
    · exact h.aligned m hm hmaligned
    · obtain rfl := List.mem_singleton.mp hm
      exact haligned hmaligned
  · change _ ≤ a.memoryUsage
    rw [sum_bytes_concat, h.usage]
    omega
  · exact Or.inr ⟨b, hb, hrest.trans hfree⟩
  · intro m hm
    rcases List.mem_append.mp hm with hm | hm
    · exact (h.free_apart m hm).mono (.refl _) hrest
    · obtain rfl := List.mem_singleton.mp hm
      left
      change a.curr + slop + call.bytes ≤ a.curr + (call.bytes + slop)
      omega
  · change _ + (a.avail - (call.bytes + slop)) ≤ (a.blocks.map Range.size).sum
    rw [sum_bytes_concat]
    omega

/-- A new block is apart from everything the arena has. -/
theorem Good.apart_new (h : Good a made) {r : Range} (hnew : NewRegion a.blocks r) :
    (∀ m ∈ made, (rangeOf m).Apart r) ∧ a.free.Apart r := by
  constructor
  · intro m hm
    obtain ⟨b, hb, hin⟩ := h.inside m hm
    exact (hnew.2.2.2 b hb).mono hin (.refl _)
  · rcases h.free_within with ⟨hcurr, havail⟩ | ⟨b, hb, hin⟩
    · left
      rw [Range.stop, free, hcurr, havail]
      exact Nat.zero_le _
    · exact (hnew.2.2.2 b hb).mono hin (.refl _)

/-- With a new block the number of bytes is still one of 64 bits. -/
theorem Good.usage_new (h : Good a made) {r : Range} (hnew : NewRegion a.blocks r) :
    (a.blocks_bytes + r.size) % 2 ^ 64 = ((a.blocks ++ [r]).map Range.size).sum := by
  have hsum := @Range.sum_size_le (a.blocks ++ [r]) space (apart_concat h.blocks_apart hnew.2.2.2)
    fun b hb => by
      rcases List.mem_append.mp hb with hb | hb
      · exact h.in_space b hb
      · obtain rfl := List.mem_singleton.mp hb
        exact hnew.within_space
  have husage : a.blocks_bytes = (a.blocks.map Range.size).sum := h.usage
  rw [sum_size_concat] at hsum ⊢
  rw [husage]
  change _ ≤ 2 ^ 64 - 1 at hsum
  omega

theorem NewRegion.in_space_concat {blocks : List Range} {r : Range} (h : NewRegion blocks r)
    (hblocks : ∀ b ∈ blocks, b.Within space) : ∀ b ∈ blocks ++ [r], b.Within space := by
  intro b hb
  rcases List.mem_append.mp hb with hb | hb
  · exact hblocks b hb
  · obtain rfl := List.mem_singleton.mp hb
    exact h.within_space

/-- A call gets a block of its own. -/
theorem Good.newBlock (h : Good a made) (hnew : NewRegion a.blocks ⟨p, n⟩) (hn : call.bytes ≤ n) :
    Good (a.allocateNewBlock n p).2 (made ++ [(call, p)]) := by
  obtain ⟨hmade, hfree⟩ := h.apart_new hnew
  have husage := h.usage_new hnew
  have hroom := h.room
  have hin : (rangeOf (call, p)).Within ⟨p, n⟩ := ⟨le_refl p, Nat.add_le_add_left hn p⟩
  have hself : (⟨p, n⟩ : Range) ∈ a.blocks ++ [⟨p, n⟩] :=
    List.mem_append_right _ (List.mem_singleton.mpr rfl)
  refine ⟨⟨?_, ?_, ?_, husage, ?_⟩, apart_concat h.blocks_apart hnew.2.2.2,
    hnew.in_space_concat h.in_space, ?_, ?_, ?_⟩
  · intro m hm
    rcases List.mem_append.mp hm with hm | hm
    · obtain ⟨b, hb, hwithin⟩ := h.inside m hm
      exact ⟨b, List.mem_append_left _ hb, hwithin⟩
    · obtain rfl := List.mem_singleton.mp hm
      exact ⟨_, hself, hin⟩
  · rw [List.map_append]
    apply apart_concat h.apart
    intro s hs
    obtain ⟨m, hm, rfl⟩ := List.mem_map.mp hs
    exact (hmade m hm).mono (.refl _) hin
  · intro m hm hmaligned
    rcases List.mem_append.mp hm with hm | hm
    · exact h.aligned m hm hmaligned
    · obtain rfl := List.mem_singleton.mp hm
      exact hnew.2.1
  · change _ ≤ (a.blocks_bytes + n) % 2 ^ 64
    rw [husage, sum_bytes_concat, sum_size_concat]
    change _ + call.bytes ≤ _ + n
    omega
  · rcases h.free_within with hnone | ⟨b, hb, hwithin⟩
    · exact Or.inl hnone
    · exact Or.inr ⟨b, List.mem_append_left _ hb, hwithin⟩
  · intro m hm
    rcases List.mem_append.mp hm with hm | hm
    · exact h.free_apart m hm
    · obtain rfl := List.mem_singleton.mp hm
      exact (hfree.mono (.refl _) hin).symm
  · change _ + a.avail ≤ ((a.blocks ++ [(⟨p, n⟩ : Range)]).map Range.size).sum
    rw [sum_bytes_concat, sum_size_concat]
    change _ + call.bytes + _ ≤ _ + n
    omega

/-- A new block becomes the current one. -/
theorem Good.newCurrent (h : Good a made) (hnew : NewRegion a.blocks ⟨p, n⟩) :
    Good { (a.allocateNewBlock n p).2 with curr := p, avail := n } made := by
  obtain ⟨hmade, -⟩ := h.apart_new hnew
  have husage := h.usage_new hnew
  have hroom := h.room
  have hself : (⟨p, n⟩ : Range) ∈ a.blocks ++ [⟨p, n⟩] :=
    List.mem_append_right _ (List.mem_singleton.mpr rfl)
  refine ⟨⟨?_, h.apart, h.aligned, husage, ?_⟩, apart_concat h.blocks_apart hnew.2.2.2,
    hnew.in_space_concat h.in_space, Or.inr ⟨_, hself, .refl _⟩, hmade, ?_⟩
  · intro m hm
    obtain ⟨b, hb, hwithin⟩ := h.inside m hm
    exact ⟨b, List.mem_append_left _ hb, hwithin⟩
  · change _ ≤ (a.blocks_bytes + n) % 2 ^ 64
    rw [husage, sum_size_concat]
    omega
  · change _ + n ≤ ((a.blocks ++ [(⟨p, n⟩ : Range)]).map Range.size).sum
    rw [sum_size_concat]
    change _ ≤ _ + n
    omega

/-- **Every call keeps the invariant.** -/
theorem good_perform (h : Good a made) (hpos : 0 < call.bytes) (hwrap : Unwrapped a call)
    (hgranted : Granted a (a.perform p call).2) :
    Good (a.perform p call).2 (made ++ [(call, (a.perform p call).1)]) := by
  cases call with
  | allocate bytes =>
      have htake := @Good.take a made (.allocate bytes) h 0 hpos
      unfold perform allocate at hgranted ⊢
      dsimp only at hgranted ⊢
      split_ifs at hgranted ⊢ with hfit hlarge
      · exact htake hfit fun hfalse => by cases hfalse
      · exact h.newBlock (hgranted _ rfl) (le_refl _)
      · have hcurrent := h.newCurrent (hgranted ⟨p, kBlockSize⟩ rfl)
        apply @Good.take _ made (.allocate bytes) hcurrent 0 hpos
        · change bytes ≤ kBlockSize
          unfold kBlockSize at hlarge ⊢
          omega
        · exact fun hfalse => by cases hfalse
  | allocateAligned bytes =>
      obtain ⟨-, hdvd⟩ := slopOf_eq a.curr
      have hneeded : (bytes + slopOf a.curr) % 2 ^ 64 = bytes + slopOf a.curr := Nat.mod_eq_of_lt hwrap
      unfold perform allocateAligned at hgranted ⊢
      dsimp only at hgranted ⊢
      rw [hneeded] at hgranted ⊢
      split_ifs at hgranted ⊢ with hfit
      · exact @Good.take a made (.allocateAligned bytes) h (slopOf a.curr) hpos hfit fun _ => hdvd
      · exact h.newBlock (hgranted _ rfl) (Nat.le_add_right _ _)

end

theorem reach_good {a : OwningArena} {made : List (ArenaCall × ℕ)} (h : Reach Unwrapped a made) :
    Good a made := by
  induction h with
  | start => exact good_empty
  | step _ hwrap hpos _ hgranted ih => exact good_perform ih hpos hwrap hgranted

theorem granted_of_same {a a' : OwningArena} (h : a'.blocks = a.blocks) : Granted a a' := by
  intro r hr
  rw [h] at hr
  exact absurd (List.append_right_eq_self.mp hr.symm) (List.cons_ne_nil r [])

theorem granted_first : Granted empty (empty.perform 4096 (.allocate 1)).2 := by
  intro r hr
  obtain rfl : (⟨4096, 4096⟩ : Range) = r := List.singleton_inj.mp hr
  exact ⟨by decide, by decide, by decide, fun _ hb => by cases hb⟩

/-- **What an arena gives out**, in every run in which no size wraps around. -/
theorem allocations_sound {a : OwningArena} {made : List (ArenaCall × ℕ)} (h : Reach Unwrapped a made) :
    Sound a made := (reach_good h).toSound

/-- Two calls, both from the first block. -/
theorem allocations_sound_two :
    Sound ⟨⟨4112, 4080, 4096⟩, [⟨4096, 4096⟩]⟩ [(.allocate 1, 4096), (.allocateAligned 8, 4104)] := by
  have hfirst : Reach Unwrapped (empty.perform 4096 (.allocate 1)).2 [(.allocate 1, 4096)] :=
    .step .start trivial (by decide) (by decide) granted_first
  exact allocations_sound (@Reach.step _ _ _ (.allocateAligned 8) 0 hfirst (by decide) (by decide) (by decide)
    (granted_of_same (by decide)))

/-- **The size of an aligned call wraps around**: behind one byte, `2 ^ 64 - 1` bytes and the slop are
six, which the first block still has. -/
theorem aligned_size_wraps :
    ¬ ∀ (a : OwningArena) (made : List (ArenaCall × ℕ)), Reach (fun _ _ => True) a made → Sound a made := by
  intro hclaim
  have hfirst : Reach (fun _ _ => True) (empty.perform 4096 (.allocate 1)).2 [(.allocate 1, 4096)] :=
    .step .start trivial (by decide) (by decide) granted_first
  have hsound := hclaim _ _ (@Reach.step _ _ _ (.allocateAligned (2 ^ 64 - 1)) 0 hfirst trivial
    (by decide) (by decide) (granted_of_same (by decide)))
  obtain ⟨b, hb, hwithin⟩ := hsound.inside (.allocateAligned (2 ^ 64 - 1), 4104) (by decide)
  obtain rfl : b = ⟨4096, 4096⟩ := List.mem_singleton.mp hb
  exact absurd hwithin (by decide)

end OwningArena

end MiniLevelDB
