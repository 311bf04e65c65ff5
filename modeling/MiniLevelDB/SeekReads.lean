import MiniLevelDB.BlockMoves

/-! # What a seek reads

The restart points of a block are there for `Seek`: it bisects them and then goes over the entries behind
one of them only.  In a block that a builder has made, whatever the order of its keys, a seek decodes at
most as many entries as the logarithm of the number of restart points says, and those up to the next restart
point (`seek_reads`). -/

namespace MiniLevelDB
namespace Block

/-- So many reads lead from a moment to another. -/
inductive Reads (b : Block) : ℕ → Moment → Moment → Prop
  | refl (m : Moment) : Reads b 0 m m
  | head {n : ℕ} {m m' m'' : Moment} : b.Read m m' → Reads b n m' m'' → Reads b (n + 1) m m''

section

variable {b : Block} {n k : ℕ} {m m' m'' : Moment}

theorem Reads.star (h : b.Reads n m m') : Relation.ReflTransGen b.Read m m' := by
  induction h with
  | refl m => exact .refl
  | head hread _ ih => exact .head hread ih

theorem Reads.trans (h : b.Reads n m m') (h' : b.Reads k m' m'') : b.Reads (n + k) m m'' := by
  induction h with
  | refl m => rwa [Nat.zero_add]
  | head hread _ ih =>
      rw [Nat.succ_add]
      exact .head hread (ih h')

end

section

variable {es : List Entry} {target : Bytes}

/-- The scan reads the entries up to the one it stops at. -/
theorem scan_reads (h : (blockContents es).length < 2 ^ 32) {j : ℕ} {it : Iterator} (hs : Stands es j it) :
    ∃ it', (blockOf es).Reads (SkipSearch.firstNot (keyBelow es target) j es.length - j) (scan target it)
      (none, it') := by
  induction hn : es.length - j using Nat.strongRecOn generalizing it j with
  | ind n ih =>
      rw [scan, SkipSearch.firstNot]
      rcases hs with hat | ⟨hj, hv⟩
      · have hlt := hat.lt
        rw [if_pos hlt]
        by_cases hb : keyBelow es target j = true
        · have hkey : it.key = lastKey [] (es.take (j + 1)) := by
            rw [hat.key_eq, List.take_succ_eq_append_getElem hlt, lastKey_append]
          obtain ⟨it₁, hdecode, hstands⟩ :=
            decodeEntry_stands h (Nat.succ_le_of_lt hlt) hat.current_eq (Or.inr hkey)
          obtain ⟨i, hi⟩ := advanceRestart_eq (blockOf es) it₁
          obtain ⟨it', hreads⟩ := ih _ (by omega) (hstands.restart_index i) rfl
          have hle := SkipSearch.le_firstNot (keyBelow es target) (show j + 1 ≤ es.length by omega)
          have hcount : SkipSearch.firstNot (keyBelow es target) (j + 1) es.length - j =
              SkipSearch.firstNot (keyBelow es target) (j + 1) es.length - (j + 1) + 1 := by omega
          rw [if_pos hb, if_pos ⟨hat.valid, (hat.below_iff target).mpr hb⟩, hcount]
          refine ⟨it', .head ⟨.scan target, it, it₁, rfl, hdecode, ?_⟩ hreads⟩
          rw [resume, hi]
        · rw [if_neg hb, if_neg fun hc => hb ((hat.below_iff target).mp hc.2), Nat.sub_self]
          exact ⟨it, .refl _⟩
      · rw [if_neg (by omega), if_neg (by simp [hv]), Nat.sub_eq_zero_of_le hj]
        exact ⟨it, .refl _⟩

/-- The bisection reads the restart points it asks. -/
theorem bisect_reads (h : (blockContents es).length < 2 ^ 32) (it : Iterator) {left right : ℕ}
    (hle : left ≤ right) (hr : right < restartCount es.length) :
    ∃ m it', (blockOf es).bisect target left right it = .ok m ∧
      (blockOf es).Reads (SkipSearch.asked (fun i => keyBelow es target (kRestartInterval * i)) left right) m
        (some (.land target), it') ∧
      it'.current = entryOffset es (kRestartInterval *
        SkipSearch.bisect (fun i => keyBelow es target (kRestartInterval * i)) left right) := by
  have hlen := blockContents_length es
  induction hn : right - left using Nat.strongRecOn generalizing it left right with
  | ind n ih =>
      rw [bisect]
      by_cases hlt : left < right
      · have hmid : (left + right + 1) % 2 ^ 32 / 2 = (left + right + 1) / 2 := by
          rw [Nat.mod_eq_of_lt (by omega)]
        have hback : ((left + right + 1) / 2 + 2 ^ 32 - 1) % 2 ^ 32 = (left + right + 1) / 2 - 1 := by
          omega
        obtain ⟨it₁, hdecode, hat⟩ := @decodeEntry_restart _ h ((left + right + 1) / 2) (by omega)
          { it with current := entryOffset es (kRestartInterval * ((left + right + 1) / 2)) } rfl
        rw [if_pos hlt, hmid]
        dsimp only
        rw [restart_blockOf (show (left + right + 1) / 2 < restartCount es.length by omega)]
        by_cases hb : keyBelow es target (kRestartInterval * ((left + right + 1) / 2)) = true
        · obtain ⟨m, it', hm, hreads, hcurrent⟩ :=
            ih (right - (left + right + 1) / 2) (by omega) it₁ (by omega) hr rfl
          rw [SkipSearch.bisect_of_lt_below _ hlt hb, SkipSearch.asked_of_lt_below _ hlt hb]
          refine ⟨_, it', rfl, .head ⟨_, _, it₁, rfl, hdecode, ?_⟩ hreads, hcurrent⟩
          rw [resume, if_pos ((hat.below_iff target).mpr hb), hm]
        · have hmid_le : left ≤ (left + right + 1) / 2 - 1 := by omega
          obtain ⟨m, it', hm, hreads, hcurrent⟩ :=
            ih ((left + right + 1) / 2 - 1 - left) (by omega) it₁ hmid_le (by omega) rfl
          rw [SkipSearch.bisect_of_lt_not_below _ hlt hb, SkipSearch.asked_of_lt_not_below _ hlt hb]
          refine ⟨_, it', rfl, .head ⟨_, _, it₁, rfl, hdecode, ?_⟩ hreads, hcurrent⟩
          rw [resume, if_neg (mt (hat.below_iff target).mp hb), hback, hm]
      · rw [if_neg hlt, SkipSearch.bisect_of_not_lt _ hlt, SkipSearch.asked_of_not_lt _ hlt,
          restart_blockOf (by omega)]
        exact ⟨_, _, rfl, .refl _, rfl⟩

/-- **What a seek reads.**  In the block of any entries, from any position of the iterator, `Seek` returns,
and it has decoded no more than a logarithm of restart points and the entries up to the next one. -/
theorem seek_reads (es : List Entry) (hfit : (BlockBuilder.empty.addAll es).finish.length < 2 ^ 32)
    (target : Bytes) (it : Iterator) :
    ∃ b m n it', Block.new (BlockBuilder.empty.addAll es).finish = .ok b ∧
      b.start (.seek target) it = .ok m ∧ b.Reads n m (none, it') ∧ b.seek target it = pure it' ∧
        n ≤ Nat.clog 2 b.restarts.length + 1 + kRestartInterval := by
  rw [finish_length] at hfit
  have hnew : Block.new (BlockBuilder.empty.addAll es).finish = .ok (blockOf es) := by
    rw [BlockBuilder.finish_addAll, new_blockContents hfit]
  have hrestarts : (blockOf es).restarts.length = restartCount es.length := restartsOf_length es
  by_cases hes : es = []
  · have hstart : (blockOf es).start (.seek target) it = .ok (none, { it with valid := false }) :=
      if_pos (restarts_eq_nil.mpr hes)
    exact ⟨_, _, 0, _, hnew, hstart, .refl _, result_of_reads hstart .refl, Nat.zero_le _⟩
  · have hpos := List.length_pos_iff.mpr hes
    have hright : restartCount es.length - 1 = (es.length - 1) / kRestartInterval ∧
        (es.length - 1) / kRestartInterval + 1 = restartCount es.length := by
      unfold restartCount kRestartInterval
      omega
    have hlast : (es.length - 1) / kRestartInterval < restartCount es.length := by omega
    obtain ⟨m, it₁, hm, hbisect, hcurrent⟩ := @bisect_reads es target hfit it 0 _ (Nat.zero_le _) hlast
    have hasked := SkipSearch.asked_le_clog (fun i => keyBelow es target (kRestartInterval * i))
      (Nat.zero_le ((es.length - 1) / kRestartInterval))
    rw [Nat.sub_zero, hright.2] at hasked
    have hleft := (SkipSearch.bisect_le (fun i => keyBelow es target (kRestartInterval * i))
      (Nat.zero_le ((es.length - 1) / kRestartInterval))).trans_lt hlast
    have hscan := SkipSearch.firstNot_bisect_le (keyBelow es target)
      (show 0 < kRestartInterval by decide) hpos
    obtain ⟨it₂, hdecode, hat⟩ := decodeEntry_restart hfit hleft hcurrent
    obtain ⟨it', hreads⟩ := @scan_reads es target hfit _ _ (Or.inl hat)
    have hall := hbisect.trans (.head ⟨_, _, it₂, rfl, hdecode, rfl⟩ hreads)
    have hstart : (blockOf es).start (.seek target) it = .ok m := by
      rw [start, if_neg (mt restarts_eq_nil.mp hes), hrestarts, hright.1]
      exact hm
    refine ⟨_, m, _, it', hnew, hstart, hall, result_of_reads hstart hall.star, ?_⟩
    rw [hrestarts]
    omega

theorem seek_reads_two : ∃ b m n it',
    Block.new (BlockBuilder.empty.addAll [([1], [7]), ([2], [8])]).finish = .ok b ∧
      b.start (.seek [2]) newIterator = .ok m ∧ b.Reads n m (none, it') ∧
        b.seek [2] newIterator = pure it' ∧ n ≤ Nat.clog 2 b.restarts.length + 1 + kRestartInterval :=
  seek_reads [([1], [7]), ([2], [8])]
    (finish_length _ ▸ (blockContents_length_le _).trans_lt (by decide)) [2] newIterator

end

end Block
end MiniLevelDB
