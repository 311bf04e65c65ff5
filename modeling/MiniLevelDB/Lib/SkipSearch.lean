import Mathlib.Data.Nat.Log
import Mathlib.Tactic

/-! # Binary search over skip points followed by a scan

A sequence of `n` positions carries a predicate `below`; every `w`-th position is a skip point.
`skipSearch` bisects the skip points with the *upper* midpoint, keeps the half that starts at the
midpoint when it is below, and then scans forward from the chosen skip point to the first
position that is not below.

Nothing here assumes that `below` is monotone.  `Unobstructed below w n j` lists the positions
before `j` the search really asks, and `skipSearch_eq_iff` says that the search reaches `j`
exactly when all of them are below; in any case it does not pass `j` (`skipSearch_le`).  It asks
logarithmically many skip points (`asked_le_clog`) and scans at most to the next one
(`firstNot_bisect_le`). -/

namespace SkipSearch

variable (below : ℕ → Bool)

/-- Upper-midpoint bisection of `[left, right]`. -/
def bisect (left right : ℕ) : ℕ :=
  if left < right then
    let mid := (left + right + 1) / 2
    if below mid then bisect mid right else bisect left (mid - 1)
  else left
termination_by right - left

/-- The midpoints the bisection of `[left, right]` asks on its way to `t`. -/
def probes (t left right : ℕ) : List ℕ :=
  if left < right then
    let mid := (left + right + 1) / 2
    mid :: (if mid ≤ t then probes t mid right else probes t left (mid - 1))
  else []
termination_by right - left

/-- The first position of `[i, n)` that is not below, or `n`. -/
def firstNot (i n : ℕ) : ℕ :=
  if i < n then (if below i then firstNot (i + 1) n else i) else n
termination_by n - i

/-- Bisection over the skip points `w * m`, then a scan. -/
def skipSearch (w n : ℕ) : ℕ :=
  firstNot below (w * bisect (fun m => below (w * m)) 0 ((n - 1) / w)) n

/-! ### Bisection -/

theorem bisect_of_lt_below {left right : ℕ} (h : left < right)
    (hb : below ((left + right + 1) / 2) = true) :
    bisect below left right = bisect below ((left + right + 1) / 2) right := by
  rw [bisect, if_pos h]
  exact if_pos hb

theorem bisect_of_lt_not_below {left right : ℕ} (h : left < right)
    (hb : ¬ below ((left + right + 1) / 2) = true) :
    bisect below left right = bisect below left ((left + right + 1) / 2 - 1) := by
  rw [bisect, if_pos h]
  exact if_neg hb

theorem bisect_of_not_lt {left right : ℕ} (h : ¬ left < right) :
    bisect below left right = left := by
  rw [bisect, if_neg h]

theorem probes_of_lt {t left right : ℕ} (h : left < right) :
    probes t left right = (left + right + 1) / 2 ::
      (if (left + right + 1) / 2 ≤ t then probes t ((left + right + 1) / 2) right
        else probes t left ((left + right + 1) / 2 - 1)) := by
  rw [probes, if_pos h]

theorem bisect_le {left right : ℕ} (hle : left ≤ right) : bisect below left right ≤ right := by
  induction left, right using bisect.induct below with
  | case1 left right h mid hb ih =>
      rw [bisect_of_lt_below below h hb]
      exact ih (by omega)
  | case2 left right h mid hb ih =>
      rw [bisect_of_lt_not_below below h hb]
      exact le_trans (ih (by omega)) (by omega)
  | case3 left right h => rw [bisect_of_not_lt below h]; exact hle

/-- The result is the left end or a midpoint that was below. -/
theorem bisect_eq_or_below (left right : ℕ) :
    bisect below left right = left ∨ below (bisect below left right) = true := by
  induction left, right using bisect.induct below with
  | case1 left right h mid hb ih =>
      rw [bisect_of_lt_below below h hb]
      rcases ih with ih | ih
      · exact Or.inr (by rw [ih]; exact hb)
      · exact Or.inr ih
  | case2 left right h mid hb ih =>
      rw [bisect_of_lt_not_below below h hb]
      exact ih
  | case3 left right h => exact Or.inl (bisect_of_not_lt below h)

/-- Unless the result is the right end, the next position was asked and is not below. -/
theorem bisect_eq_or_not_below_succ {left right : ℕ} (hle : left ≤ right) :
    bisect below left right = right ∨ ¬ below (bisect below left right + 1) = true := by
  induction left, right using bisect.induct below with
  | case1 left right h mid hb ih =>
      rw [bisect_of_lt_below below h hb]
      exact ih (by omega)
  | case2 left right h mid hb ih =>
      rw [bisect_of_lt_not_below below h hb]
      refine Or.inr ?_
      rcases ih (by omega) with ih | ih
      · rw [ih, Nat.sub_add_cancel (by omega)]
        exact hb
      · exact ih
  | case3 left right h =>
      rw [bisect_of_not_lt below h]
      exact Or.inl (by omega)

/-- When nothing after `t` is below, the bisection does not pass `t`. -/
theorem bisect_le_of_not_below {left right t : ℕ} (hl : left ≤ t)
    (hafter : ∀ m, t < m → m ≤ right → ¬ below m = true) (hle : left ≤ right) :
    bisect below left right ≤ t := by
  rcases bisect_eq_or_below below left right with h | h
  · rw [h]; exact hl
  · by_contra hlt
    exact hafter _ (by omega) (bisect_le below hle) h

/-- When nothing after `t` is below, the bisection ends at `t` exactly when every probe up to
`t` is below. -/
theorem bisect_eq_iff {left right t : ℕ} (hl : left ≤ t) (hr : t ≤ right)
    (hafter : ∀ m, t < m → m ≤ right → ¬ below m = true) :
    bisect below left right = t ↔ ∀ m ∈ probes t left right, m ≤ t → below m = true := by
  induction left, right using bisect.induct below with
  | case1 left right h mid hb ih =>
      have hmid : mid = (left + right + 1) / 2 := rfl
      have hmt : mid ≤ t := by
        by_contra hlt
        exact hafter mid (by omega) (by omega) hb
      rw [bisect_of_lt_below below h hb, probes_of_lt h, ← hmid, if_pos hmt, ih hmt hr hafter]
      simp only [List.mem_cons, forall_eq_or_imp]
      exact ⟨fun H => ⟨fun _ => hb, H⟩, fun H => H.2⟩
  | case2 left right h mid hb ih =>
      have hmid : mid = (left + right + 1) / 2 := rfl
      rw [bisect_of_lt_not_below below h hb, probes_of_lt h, ← hmid]
      by_cases hmt : mid ≤ t
      · -- the probe `mid` is at or before `t` and not below: both sides fail
        have hlt := @bisect_le below left (mid - 1) (by omega)
        constructor
        · intro he; omega
        · intro H
          exact absurd (H mid List.mem_cons_self hmt) hb
      · rw [if_neg hmt, ih hl (by omega) (fun m h1 h2 => hafter m h1 (by omega))]
        simp only [List.mem_cons, forall_eq_or_imp]
        exact ⟨fun H => ⟨fun h' => absurd h' hmt, H⟩, fun H => H.2⟩
  | case3 left right h =>
      rw [bisect_of_not_lt below h, probes, if_neg h]
      simp only [List.not_mem_nil, false_implies, implies_true, iff_true]
      omega

/-! ### The scan -/

theorem firstNot_le {i n : ℕ} (h : i ≤ n) : firstNot below i n ≤ n := by
  induction i using firstNot.induct below n with
  | case1 i hlt hb ih => rw [firstNot, if_pos hlt, if_pos hb]; exact ih hlt
  | case2 i hlt hb => rw [firstNot, if_pos hlt, if_neg hb]; exact h
  | case3 i hlt => rw [firstNot, if_neg hlt]

theorem firstNot_le_of_not_below {i n j : ℕ} (hij : i ≤ j) (hj : j < n)
    (hb : ¬ below j = true) : firstNot below i n ≤ j := by
  induction i using firstNot.induct below n with
  | case1 i hlt hbi ih =>
      rw [firstNot, if_pos hlt, if_pos hbi]
      have hne : i ≠ j := fun e => hb (e ▸ hbi)
      exact ih (by omega)
  | case2 i hlt hbi => rw [firstNot, if_pos hlt, if_neg hbi]; exact hij
  | case3 i hlt => omega

theorem firstNot_eq_iff {i n j : ℕ} (hij : i ≤ j) (hj : j < n) (hb : ¬ below j = true) :
    firstNot below i n = j ↔ ∀ p, i ≤ p → p < j → below p = true := by
  induction i using firstNot.induct below n with
  | case1 i hlt hbi ih =>
      have hne : i ≠ j := fun e => hb (e ▸ hbi)
      rw [firstNot, if_pos hlt, if_pos hbi, ih (by omega)]
      constructor
      · intro H p h1 h2
        rcases Nat.eq_or_lt_of_le h1 with rfl | h1
        · exact hbi
        · exact H p h1 h2
      · intro H p h1 h2
        exact H p (by omega) h2
  | case2 i hlt hbi =>
      rw [firstNot, if_pos hlt, if_neg hbi]
      constructor
      · intro e p h1 h2; omega
      · intro H
        by_contra hne
        exact hbi (H i le_rfl (by omega))
  | case3 i hlt => omega

/-! ### The two searches together -/

/-- The positions before `j` that decide whether the search reaches `j`: the skip points the
bisection asks on its way to the last skip point before `j`, and the stretch from there to `j`. -/
def Unobstructed (w n j : ℕ) : Prop :=
  (∀ m ∈ probes ((j - 1) / w) 0 ((n - 1) / w), m ≤ (j - 1) / w → below (w * m) = true) ∧
    ∀ p, w * ((j - 1) / w) ≤ p → p < j → below p = true

instance (w n j : ℕ) : Decidable (Unobstructed below w n j) :=
  have : Decidable (∀ p, w * ((j - 1) / w) ≤ p → p < j → below p = true) :=
    decidable_of_iff (∀ p, p < j → w * ((j - 1) / w) ≤ p → below p = true)
      ⟨fun h p h1 h2 => h p h2 h1, fun h p h1 h2 => h p h2 h1⟩
  inferInstanceAs (Decidable (_ ∧ _))

section
variable {below} {w n j : ℕ} (hw : 0 < w) (hj : j < n)
  (hafter : ∀ p, j ≤ p → p < n → ¬ below p = true)
include hw hj hafter

theorem skip_not_below (m : ℕ) (h1 : (j - 1) / w < m) (h2 : m ≤ (n - 1) / w) :
    ¬ below (w * m) = true := by
  have h3 : j - 1 < w * m := by
    have := Nat.lt_mul_of_div_lt h1 hw
    rwa [Nat.mul_comm] at this
  have h4 : w * m ≤ n - 1 := by
    have := Nat.mul_le_mul_left w h2
    exact this.trans (Nat.mul_div_le _ _)
  exact hafter _ (by omega) (by omega)

theorem bisect_skip_le :
    bisect (fun m => below (w * m)) 0 ((n - 1) / w) ≤ (j - 1) / w :=
  bisect_le_of_not_below _ (Nat.zero_le _) (skip_not_below hw hj hafter) (Nat.zero_le _)

theorem skipSearch_le : skipSearch below w n ≤ j := by
  have h := bisect_skip_le hw hj hafter
  have h1 : w * bisect (fun m => below (w * m)) 0 ((n - 1) / w) ≤ j := by
    have := (Nat.mul_le_mul_left w h).trans (Nat.mul_div_le (j - 1) w)
    omega
  exact firstNot_le_of_not_below below h1 hj (hafter j le_rfl hj)

/-- **The search reaches `j` exactly when it is unobstructed.** -/
theorem skipSearch_eq_iff : skipSearch below w n = j ↔ Unobstructed below w n j := by
  have hbis := bisect_eq_iff (fun m => below (w * m)) (Nat.zero_le _)
    (Nat.div_le_div_right (c := w) (show j - 1 ≤ n - 1 by omega)) (skip_not_below hw hj hafter)
  have hskip := (Nat.mul_div_le (j - 1) w)
  have hle := bisect_skip_le hw hj hafter
  have hnext := bisect_eq_or_not_below_succ (fun m => below (w * m)) (Nat.zero_le ((n - 1) / w))
  unfold skipSearch Unobstructed
  rw [← hbis]
  generalize bisect (fun m => below (w * m)) 0 ((n - 1) / w) = L at hle hnext ⊢
  rcases Nat.lt_or_ge L ((j - 1) / w) with hlt | hge
  · -- the bisection stopped early: the skip point behind it is not below and blocks the scan
    have hnb : ¬ below (w * (L + 1)) = true := by
      rcases hnext with h | h
      · have := Nat.div_le_div_right (c := w) (show j - 1 ≤ n - 1 by omega)
        omega
      · exact h
    have h1 : w * (L + 1) ≤ w * ((j - 1) / w) := Nat.mul_le_mul_left w hlt
    have h2 : w * 1 ≤ w * ((j - 1) / w) := Nat.mul_le_mul_left w (by omega)
    have h3 : firstNot below (w * L) n ≤ w * (L + 1) :=
      firstNot_le_of_not_below below (Nat.mul_le_mul_left w (by omega)) (by omega) hnb
    constructor
    · intro e; omega
    · rintro ⟨e, -⟩; omega
  · obtain rfl : L = (j - 1) / w := by omega
    rw [firstNot_eq_iff below (by omega) hj (hafter j le_rfl hj)]
    simp

end

theorem firstNot_of_all {i n : ℕ} (h : ∀ p, p < n → below p = true) : firstNot below i n = n := by
  induction i using firstNot.induct below n with
  | case1 i hlt hb ih => rw [firstNot, if_pos hlt, if_pos hb]; exact ih
  | case2 i hlt hb => exact absurd (h i hlt) hb
  | case3 i hlt => rw [firstNot, if_neg hlt]

/-- Over a sorted sequence the search finds the first position that is not below. -/
theorem skipSearch_of_sorted {w n j : ℕ} (hw : 0 < w) (hj : j ≤ n)
    (hbefore : ∀ p, p < j → below p = true)
    (hafter : ∀ p, j ≤ p → p < n → ¬ below p = true) : skipSearch below w n = j := by
  rcases hj.lt_or_eq with hlt | rfl
  · rcases Nat.eq_zero_or_pos j with rfl | hpos
    · exact Nat.le_zero.mp (skipSearch_le hw hlt hafter)
    · refine (skipSearch_eq_iff hw hlt hafter).mpr ⟨fun m _ hm => ?_, fun p _ hp => hbefore p hp⟩
      have := (Nat.mul_le_mul_left w hm).trans (Nat.mul_div_le (j - 1) w)
      exact hbefore _ (by omega)
  · exact firstNot_of_all below hbefore

/-! ### How much is asked -/

/-- The number of midpoints the bisection asks. -/
def asked (left right : ℕ) : ℕ :=
  if left < right then
    let mid := (left + right + 1) / 2
    (if below mid then asked mid right else asked left (mid - 1)) + 1
  else 0
termination_by right - left

theorem asked_of_lt_below {left right : ℕ} (h : left < right)
    (hb : below ((left + right + 1) / 2) = true) :
    asked below left right = asked below ((left + right + 1) / 2) right + 1 := by
  rw [asked, if_pos h]
  exact congrArg (· + 1) (if_pos hb)

theorem asked_of_lt_not_below {left right : ℕ} (h : left < right)
    (hb : ¬ below ((left + right + 1) / 2) = true) :
    asked below left right = asked below left ((left + right + 1) / 2 - 1) + 1 := by
  rw [asked, if_pos h]
  exact congrArg (· + 1) (if_neg hb)

theorem asked_of_not_lt {left right : ℕ} (h : ¬ left < right) : asked below left right = 0 := by
  rw [asked, if_neg h]

/-- A stretch of more than one point, and the half of it that is left, rounded up. -/
theorem clog_half {d : ℕ} (h : 0 < d) : Nat.clog 2 (d + 1) = Nat.clog 2 ((d + 2) / 2) + 1 :=
  Nat.clog_of_one_lt (by decide) (by omega)

theorem asked_le_clog {left right : ℕ} (hle : left ≤ right) :
    asked below left right ≤ Nat.clog 2 (right - left + 1) := by
  induction left, right using bisect.induct below with
  | case1 left right h mid hb ih =>
      have hmid : mid = (left + right + 1) / 2 := rfl
      rw [asked_of_lt_below below h hb, clog_half (by omega)]
      exact Nat.succ_le_succ ((ih (by omega)).trans (Nat.clog_mono_right 2 (by omega)))
  | case2 left right h mid hb ih =>
      have hmid : mid = (left + right + 1) / 2 := rfl
      rw [asked_of_lt_not_below below h hb, clog_half (by omega)]
      exact Nat.succ_le_succ ((ih (by omega)).trans (Nat.clog_mono_right 2 (by omega)))
  | case3 left right h =>
      rw [asked_of_not_lt below h]
      exact Nat.zero_le _

theorem le_firstNot {i n : ℕ} (h : i ≤ n) : i ≤ firstNot below i n := by
  induction i using firstNot.induct below n with
  | case1 i hlt hb ih => rw [firstNot, if_pos hlt, if_pos hb]; exact (Nat.le_succ i).trans (ih hlt)
  | case2 i hlt hb => rw [firstNot, if_pos hlt, if_neg hb]
  | case3 i hlt => rw [firstNot, if_neg hlt]; exact h

/-- The scan ends at the next skip point, at the latest: it was asked and is not below. -/
theorem firstNot_bisect_le {w n : ℕ} (hw : 0 < w) (hn : 0 < n) :
    firstNot below (w * bisect (fun m => below (w * m)) 0 ((n - 1) / w)) n ≤
      w * bisect (fun m => below (w * m)) 0 ((n - 1) / w) + w := by
  have hle := bisect_le (fun m => below (w * m)) (Nat.zero_le ((n - 1) / w))
  have hnext := bisect_eq_or_not_below_succ (fun m => below (w * m)) (Nat.zero_le ((n - 1) / w))
  generalize bisect (fun m => below (w * m)) 0 ((n - 1) / w) = L at hle hnext ⊢
  have hstart : w * L ≤ n - 1 := (Nat.mul_le_mul_left w hle).trans (Nat.mul_div_le _ _)
  rcases Nat.lt_or_ge (w * L + w) n with hlt | hge
  · refine firstNot_le_of_not_below below (Nat.le_add_right _ _) hlt ?_
    rcases hnext with hlast | hnot
    · have hend := Nat.lt_mul_div_succ (n - 1) hw
      rw [← hlast, Nat.mul_add, Nat.mul_one] at hend
      omega
    · exact hnot
  · exact (firstNot_le below (by omega)).trans hge

end SkipSearch
