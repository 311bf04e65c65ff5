import MiniLevelDB.Runs

/-! # How many file numbers a run takes

A write or a flush takes two file numbers at most, and no other call takes any for good: the log that
opening creates has the number that a flush cut off by a crash has left over. -/

namespace MiniLevelDB

open Effect

/-- The file numbers are below `n`, and one more is left where a log is to be created. -/
def NumberedFiles (l : List FileEntry) (n : ℕ) : Prop :=
  (∀ p ∈ l, p.1.number < n) ∧ (ofType .kLogFile l = [] → (∀ p ∈ l, p.1.number + 1 < n) ∧ 2 ≤ n)

/-- So are the next ones of an open database. -/
structure Numbered (w : World) (l : List FileEntry) (n : ℕ) : Prop where
  files : NumberedFiles l n
  next : ∀ db, w.db = some db → db.next_file_number ≤ n

/-- How many file numbers a call may take. -/
def Call.numbers : Call → ℕ
  | .perform _ => 2
  | .flush => 2
  | _ => 0

theorem numbered_start (fs : FileSystem) : Numbered ⟨fs, none⟩ [] 2 :=
  ⟨⟨fun _ hp => absurd hp List.not_mem_nil, fun _ => ⟨fun _ hp => absurd hp List.not_mem_nil, le_refl 2⟩⟩,
    fun _ hdb => by cases hdb⟩

theorem Numbered.leavesRoom {dbname : Bytes} {w : World} {l : List FileEntry} {n : ℕ}
    (h : Numbered w l n) (hdir : Dir dbname w.fs l) (hn : n + 2 < 2 ^ 64) : LeavesRoom dbname w := by
  constructor
  · intro l' hdir' p hp
    obtain rfl := hdir.unique hdir'
    have := h.files.1 p hp
    omega
  · intro db hdb
    have := h.next db hdb
    omega

/-- Files of the same names, with a log if there was one. -/
theorem NumberedFiles.of_names {l l' : List FileEntry} {n : ℕ} (h : NumberedFiles l n)
    (hnames : ∀ p' ∈ l', ∃ p ∈ l, p.1 = p'.1)
    (hlog : ofType .kLogFile l' = [] → ofType .kLogFile l = []) : NumberedFiles l' n := by
  constructor
  · intro p' hp'
    obtain ⟨p, hp, heq⟩ := hnames p' hp'
    rw [← heq]
    exact h.1 p hp
  · intro hnil
    obtain ⟨hlt, htwo⟩ := h.2 (hlog hnil)
    refine ⟨?_, htwo⟩
    intro p' hp'
    obtain ⟨p, hp, heq⟩ := hnames p' hp'
    rw [← heq]
    exact hlt p hp

theorem NumberedFiles.mono {l : List FileEntry} {n m : ℕ} (h : NumberedFiles l n) (hle : n ≤ m) :
    NumberedFiles l m := by
  refine ⟨fun p hp => (h.1 p hp).trans_le hle, ?_⟩
  intro hnil
  obtain ⟨hlt, htwo⟩ := h.2 hnil
  exact ⟨fun p hp => (hlt p hp).trans_le hle, htwo.trans hle⟩

theorem NumberedFiles.kept {l : List FileEntry} {n : ℕ} (h : NumberedFiles l n) :
    NumberedFiles (l.filter MiniLevelDB.kept) n := by
  apply h.of_names
  · exact fun p hp => ⟨p, List.mem_of_mem_filter hp, rfl⟩
  · rw [ofType_kept (by decide)]
    exact id

theorem NumberedFiles.cutting {l l' : List FileEntry} {n : ℕ} (h : NumberedFiles l n)
    (hcut : List.Forall₂ Cutting l l') : NumberedFiles l' n := by
  apply h.of_names
  · intro p' hp'
    have hmem : p'.1 ∈ l.map Prod.fst := by
      rw [← map_fst_cutting hcut]
      exact List.mem_map_of_mem hp'
    obtain ⟨p, hp, heq⟩ := List.mem_map.mp hmem
    exact ⟨p, hp, heq⟩
  · intro hnil
    have hlen := length_ofType_cutting .kLogFile hcut
    rw [hnil] at hlen
    exact List.eq_nil_of_length_eq_zero hlen.symm

/-- With a log there is no more to ask. -/
theorem numberedFiles_of_log {l : List FileEntry} {n m : ℕ} {b : Bytes} (h : ∀ p ∈ l, p.1.number < n)
    (hb : (⟨m, .kLogFile⟩, b) ∈ l) : NumberedFiles l n := by
  refine ⟨h, ?_⟩
  intro hnil
  have hmem : (m, b) ∈ ofType .kLogFile l := mem_ofType.mpr hb
  rw [hnil] at hmem
  cases hmem

/-- The new log has a number that was left. -/
theorem NumberedFiles.nextNumber_lt {l : List FileEntry} {n : ℕ} (h : NumberedFiles l n)
    (hnum : ∀ p ∈ l, p.1.number + 2 < 2 ^ 64) (hlog : ofType .kLogFile l = []) : nextNumber 1 l < n := by
  obtain ⟨-, -, hleast⟩ := nextNumber_bounds 1 fun p hp => (by
    have := hnum p hp
    omega : p.1.number + 1 < 2 ^ 64)
  obtain ⟨hlt, htwo⟩ := h.2 hlog
  have := hleast (n - 1) (by omega) fun p hp => by
    have := hlt p hp
    omega
  omega

/-- The numbers during a flush. -/
theorem numberedFiles_flushing {l l' : List FileEntry} {m n k : ℕ} {b table : Bytes}
    (h : ∀ p ∈ l, p.1.number < k) (hk : k ≤ n) (hb : (⟨m, .kLogFile⟩, b) ∈ l)
    (hf : Flushing ⟨m, .kLogFile⟩ k table l l') : NumberedFiles l' (n + 2) := by
  have hold : ∀ p ∈ l, p.1.number < n + 2 := fun p hp => by
    have := h p hp
    omega
  have hnew : ∀ {type : FileType} {x : Bytes}, ∀ p ∈ l ++ [((⟨k, type⟩ : FileInfo), x)], p.1.number < n + 2 := by
    intro type x p hp
    rcases List.mem_append.mp hp with hp | hp
    · exact hold p hp
    · obtain rfl := List.mem_singleton.mp hp
      exact Nat.lt_add_of_pos_right Nat.two_pos |>.trans_le' hk
  cases hf with
  | before => exact numberedFiles_of_log hold hb
  | writing x => exact numberedFiles_of_log hnew (List.mem_append_left _ hb)
  | renamed _ => exact numberedFiles_of_log hnew (List.mem_append_left _ hb)
  | unlogged _ =>
      have hsucc : ∀ p ∈ without ⟨m, .kLogFile⟩ l ++ [(⟨k, .kTableFile⟩, table)], p.1.number + 1 < n + 2 := by
        intro p hp
        rcases List.mem_append.mp hp with hp | hp
        · have := h p (List.mem_of_mem_filter hp)
          omega
        · obtain rfl := List.mem_singleton.mp hp
          exact Nat.succ_lt_succ (Nat.lt_succ_of_le hk)
      exact ⟨fun p hp => Nat.lt_of_succ_lt (hsucc p hp), fun _ => ⟨hsucc, Nat.le_add_left 2 n⟩⟩
  | relogged _ =>
      refine numberedFiles_of_log (m := k + 1) (b := []) ?_ (mem_flushed.mpr (Or.inr (Or.inr rfl)))
      intro p hp
      rcases mem_flushed.mp hp with ⟨hp, -⟩ | rfl | rfl
      · exact hold p hp
      · exact Nat.lt_add_of_pos_right Nat.two_pos |>.trans_le' hk
      · exact Nat.succ_lt_succ (Nat.lt_succ_of_le hk)

theorem NumberedFiles.logAfter {l : List FileEntry} {n : ℕ} (h : NumberedFiles l n) (db : DBImpl)
    (b x : Bytes) : NumberedFiles (db.logAfter b x l) n := by
  apply h.of_names
  · intro p' hp'
    obtain ⟨p, hp, heq⟩ := exists_of_mem_setContent hp'
    exact ⟨p, hp, heq⟩
  · intro hnil
    have hlen := congrArg List.length (map_fst_ofType .kLogFile (db.logAfter b x l))
    rw [DBImpl.logAfter, map_fst_setContent, ← map_fst_ofType, ← DBImpl.logAfter, hnil] at hlen
    rw [List.length_map, List.length_map] at hlen
    exact List.eq_nil_of_length_eq_zero hlen.symm

theorem numberedFiles_leaves {dbname : Bytes} {w : World} {l l' : List FileEntry} {n : ℕ} {call : Call}
    (hsound : Sound dbname w l) (hroom : LeavesRoom dbname w) (h : Numbered w l n)
    (hleaves : Leaves l w.db call l') : NumberedFiles l' (n + call.numbers) := by
  obtain ⟨fs, open?⟩ := w
  have hnum := hroom.1 l hsound.rests.1
  cases hleaves with
  | @scanning pre post hl =>
      apply h.files.of_names
      · intro p hp
        refine ⟨p, ?_, rfl⟩
        rw [hl]
        rcases List.mem_append.mp hp with hp | hp
        · exact List.mem_append_left _ (List.mem_of_mem_filter hp)
        · exact List.mem_append_right _ hp
      · rw [hl, ofType_append, ofType_kept (by decide), ofType_append]
        exact id
  | cutting hcut => exact h.files.kept.cutting hcut
  | creating hmax =>
      have hnil := hsound.tidy.no_log hmax
      refine numberedFiles_of_log (b := []) ?_ (List.mem_append_right _ (List.mem_singleton.mpr rfl))
      intro p hp
      rcases List.mem_append.mp hp with hp | hp
      · exact h.files.1 p (List.mem_of_mem_filter hp)
      · obtain rfl := List.mem_singleton.mp hp
        exact h.files.nextNumber_lt hnum hnil
  | logging _ _ => exact (h.files.logAfter _ _ _).mono (Nat.le_add_right n 2)
  | @filling db op b l' hb hf =>
      exact numberedFiles_flushing (number_logAfter (hsound.number rfl) b _) (h.next db rfl)
        (mem_setContent_self hb) hf
  | @flushing db l' hf =>
      obtain ⟨b, hst⟩ := hsound.rests.2 db rfl
      exact numberedFiles_flushing hst.number (h.next db rfl) hst.log_mem hf
  | closing => exact h.files

/-- **A step takes as many file numbers as its call may.** -/
theorem numbered_step {dbname : Bytes} {w w' : World} {l l' : List FileEntry} {n : ℕ} {call : Call}
    {s : Option Status} (hsound : Sound dbname w l) (hroom : LeavesRoom dbname w) (h : Numbered w l n)
    (hb : Becomes dbname w l call s w' l') : Numbered w' l' (n + call.numbers) := by
  refine ⟨numberedFiles_leaves hsound hroom h hb.leaves, ?_⟩
  obtain ⟨fs, open?⟩ := w
  obtain ⟨fs', open'⟩ := w'
  rintro db' rfl
  rcases hb with ⟨s', -, hends⟩ | ⟨-, hclosed, -⟩
  · cases hends with
    | opened hopened =>
        have hnum := hroom.1 l hsound.rests.1
        rcases hopened.contents with ⟨hmax, -, -, hnext, -⟩ | ⟨hmax, -, -, hnext, -⟩
        · rw [hnext]
          exact h.files.nextNumber_lt hnum (hsound.tidy.no_log hmax)
        · obtain ⟨b, hb⟩ := (maxLogNumber_cases 0 l).resolve_left hmax
          obtain ⟨-, -, hleast⟩ := nextNumber_bounds 1 fun p hp => (by
            have := hnum p hp
            omega : p.1.number + 1 < 2 ^ 64)
          rw [hnext]
          exact hleast n (Nat.one_le_of_lt (h.files.1 _ hb)) h.files.1
    | rejected _ _ hlogged _ =>
        rw [hlogged.next_file_number]
        exact (h.next _ rfl).trans (Nat.le_add_right n 2)
    | written _ _ hlogged _ _ =>
        rw [hlogged.next_file_number]
        exact (h.next _ rfl).trans (Nat.le_add_right n 2)
    | filled _ _ hlogged _ _ _ hflushed =>
        rw [hflushed.next_file_number, hlogged.next_file_number]
        exact Nat.add_le_add_right (h.next _ rfl) 2
    | flushed _ _ hflushed =>
        rw [hflushed.next_file_number]
        exact Nat.add_le_add_right (h.next _ rfl) 2
    | unchanged _ _ => exact (h.next _ rfl).trans (Nat.le_add_right n 2)
  · cases hclosed

theorem Numbered.mono {w : World} {l : List FileEntry} {n m : ℕ} (h : Numbered w l n) (hle : n ≤ m) :
    Numbered w l m := ⟨h.files.mono hle, fun db hdb => (h.next db hdb).trans hle⟩

end MiniLevelDB
