import MiniLevelDB.Worlds

/-! # The files in every run

What the files of a directory are at every moment of every run (`Tidy`, `Grows`).  Both are shown for what a
crash leaves and for the ends of the calls, and so they hold in all runs (`reach_sound`). -/

namespace MiniLevelDB

open Effect

/-! ### The files of a directory -/

/-- The files of a directory of the database, at any moment. -/
structure Tidy (l : List FileEntry) : Prop where
  one_log : (ofType .kLogFile l).length ≤ 1
  positive : ∀ p ∈ l, 1 ≤ p.1.number
  tables : ∀ b ∈ tableContents l, b.length < 2 ^ 63 ∧ ∃ es, b = tableBytes es

/-- No table is lost or changed, and the new ones have numbers above those of all files. -/
def Grows (l l' : List FileEntry) : Prop :=
  ∃ new, ofType .kTableFile l' = ofType .kTableFile l ++ new ∧ ∀ t ∈ new, ∀ p ∈ l, p.1.number < t.1

theorem Grows.of_eq {l l' : List FileEntry} (h : ofType .kTableFile l' = ofType .kTableFile l) :
    Grows l l' := by
  refine ⟨[], ?_, fun t ht => absurd ht List.not_mem_nil⟩
  rw [h, List.append_nil]

namespace Tidy

variable {l l' : List FileEntry}

theorem nil : Tidy [] :=
  ⟨Nat.zero_le _, fun _ hp => absurd hp List.not_mem_nil, fun _ hb => absurd hb List.not_mem_nil⟩

theorem of_same_tables (h : Tidy l) (htables : ofType .kTableFile l' = ofType .kTableFile l)
    (hlog : (ofType .kLogFile l').length ≤ 1) (hpos : ∀ p ∈ l', 1 ≤ p.1.number) : Tidy l' := by
  refine ⟨hlog, hpos, ?_⟩
  rw [tableContents, htables]
  exact h.tables

theorem log_eq (h : Tidy l) {n : ℕ} {b : Bytes} (hb : (⟨n, .kLogFile⟩, b) ∈ l) :
    ofType .kLogFile l = [(n, b)] := by
  have hmem : (n, b) ∈ ofType .kLogFile l := mem_ofType.mpr hb
  obtain ⟨p, hp⟩ := List.length_eq_one_iff.mp (le_antisymm h.one_log (List.length_pos_of_mem hmem))
  rw [hp] at hmem ⊢
  rw [List.mem_singleton.mp hmem]

theorem kept (h : Tidy l) : Tidy (l.filter kept) := by
  apply h.of_same_tables (ofType_kept (by decide) l)
  · rw [ofType_kept (by decide) l]
    exact h.one_log
  · exact fun p hp => h.positive p (List.mem_of_mem_filter hp)

end Tidy

/-! ### What the loops of `Init` leave of the files -/

theorem ofType_cutting {type : FileType} (htype : type ≠ .kLogFile) {l l' : List FileEntry}
    (h : List.Forall₂ Cutting l l') : ofType type l' = ofType type l := by
  induction h with
  | nil => rfl
  | @cons p p' l l' hp _ ih =>
      rcases hp with rfl | ⟨hlog, -, hname, -⟩
      · rw [← List.singleton_append, ofType_append, ih, ← ofType_append, List.singleton_append]
      · have hne : p.1.type ≠ type := by
          rw [hlog]
          exact htype.symm
        rw [← List.singleton_append, ofType_append, ih, ← @List.singleton_append _ p, ofType_append,
          ofType_singleton, ofType_singleton, hname, if_neg hne, if_neg hne]

theorem map_fst_cutting {l l' : List FileEntry} (h : List.Forall₂ Cutting l l') :
    l'.map Prod.fst = l.map Prod.fst := by
  induction h with
  | nil => rfl
  | @cons p p' l l' hp _ ih =>
      have hname : p'.1 = p.1 := by
        rcases hp with rfl | ⟨-, -, hname, -⟩
        · rfl
        · exact hname
      rw [List.map_cons, List.map_cons, ih, hname]

theorem map_fst_ofType (type : FileType) (l : List FileEntry) :
    (ofType type l).map Prod.fst =
      (l.map Prod.fst).filterMap fun f => if f.type = type then some f.number else none := by
  rw [ofType, List.map_filterMap, List.filterMap_map]
  apply List.filterMap_congr
  intro p _
  dsimp only [Function.comp]
  split_ifs
  · rfl
  · rfl

theorem length_ofType_cutting (type : FileType) {l l' : List FileEntry} (h : List.Forall₂ Cutting l l') :
    (ofType type l').length = (ofType type l).length := by
  rw [← List.length_map (f := Prod.fst), map_fst_ofType, map_fst_cutting h, ← map_fst_ofType,
    List.length_map]

theorem Tidy.cutting {l l' : List FileEntry} (h : Tidy l) (hcut : List.Forall₂ Cutting l l') : Tidy l' := by
  apply h.of_same_tables (ofType_cutting (by decide) hcut)
  · rw [length_ofType_cutting _ hcut]
    exact h.one_log
  · intro p hp
    have hmem : p.1 ∈ l.map Prod.fst := by
      rw [← map_fst_cutting hcut]
      exact List.mem_map_of_mem hp
    obtain ⟨q, hq, heq⟩ := List.mem_map.mp hmem
    rw [← heq]
    exact h.positive q hq

/-! ### What a flush leaves of the files -/

theorem Tidy.flushing {l l' : List FileEntry} {m n : ℕ} {b : Bytes} {es : List Entry} (h : Tidy l)
    (hb : (⟨m, .kLogFile⟩, b) ∈ l) (hnew : ∀ p ∈ l, p.1.number < n)
    (hf : Flushing ⟨m, .kLogFile⟩ n (tableBytes es) l l') : Tidy l' ∧ Grows l l' := by
  have hn : 1 ≤ n := (h.positive _ hb).trans (hnew _ hb).le
  have hlog := h.log_eq hb
  have hwithout : ofType .kLogFile (without ⟨m, .kLogFile⟩ l) = [] :=
    @ofType_without ⟨m, .kLogFile⟩ l b hlog
  have htables : ∀ l₁, ofType .kTableFile l₁ = ofType .kTableFile l ++ [(n, tableBytes es)] →
      (tableBytes es).length < 2 ^ 63 → (ofType .kLogFile l₁).length ≤ 1 →
      (∀ p ∈ l₁, 1 ≤ p.1.number) → Tidy l₁ ∧ Grows l l₁ := by
    intro l₁ heq hlen hone hpos
    refine ⟨⟨hone, hpos, ?_⟩, [(n, tableBytes es)], heq, ?_⟩
    · intro c hc
      rw [tableContents, heq, List.map_append, List.mem_append] at hc
      rcases hc with hc | hc
      · exact h.tables c hc
      · obtain rfl := List.mem_singleton.mp hc
        exact ⟨hlen, es, rfl⟩
    · intro t ht p hp
      obtain rfl := List.mem_singleton.mp ht
      exact hnew p hp
  cases hf with
  | before => exact ⟨h, Grows.of_eq rfl⟩
  | writing x =>
      have heq : ofType .kTableFile (l ++ [(⟨n, .kTempFile⟩, x)]) = ofType .kTableFile l := by simp
      refine ⟨h.of_same_tables heq ?_ ?_, Grows.of_eq heq⟩
      · simpa using h.one_log
      · intro p hp
        rcases List.mem_append.mp hp with hp | hp
        · exact h.positive p hp
        · obtain rfl := List.mem_singleton.mp hp
          exact hn
  | renamed hlen =>
      apply htables _ (by simp) hlen
      · simpa using h.one_log
      · intro p hp
        rcases List.mem_append.mp hp with hp | hp
        · exact h.positive p hp
        · obtain rfl := List.mem_singleton.mp hp
          exact hn
  | unlogged hlen =>
      apply htables _ _ hlen
      · rw [ofType_append, hwithout]
        simp
      · intro p hp
        rcases List.mem_append.mp hp with hp | hp
        · exact h.positive p (List.mem_of_mem_filter hp)
        · obtain rfl := List.mem_singleton.mp hp
          exact hn
      · rw [ofType_append, ofType_without_ne (by simp)]
        simp
  | relogged hlen =>
      apply htables _ _ hlen
      · rw [ofType_append, hwithout]
        simp [ofType]
      · intro p hp
        rcases mem_flushed.mp hp with ⟨hp, -⟩ | rfl | rfl
        · exact h.positive p hp
        · exact hn
        · exact Nat.le_add_left 1 n
      · rw [ofType_append, ofType_without_ne (by simp)]
        simp [ofType]

/-! ### What opening leaves of the files -/

theorem ofType_append_log {n : ℕ} {b : Bytes} (l : List FileEntry) :
    ofType .kTableFile (l ++ [(⟨n, .kLogFile⟩, b)]) = ofType .kTableFile l := by simp

theorem Tidy.no_log {l : List FileEntry} (h : Tidy l) (hmax : maxLogNumber 0 l = 0) :
    ofType .kLogFile l = [] := by
  apply List.eq_nil_iff_forall_not_mem.mpr
  rintro ⟨n, b⟩ hp
  have hmem := mem_ofType.mp hp
  have hle := (le_maxLogNumber 0).2 _ hmem rfl
  have hpos := h.positive _ hmem
  dsimp only at hle hpos
  omega

theorem one_le_nextNumber {l : List FileEntry} (hnum : ∀ p ∈ l, p.1.number + 2 < 2 ^ 64) :
    1 ≤ nextNumber 1 l ∧ ∀ p ∈ l, p.1.number < nextNumber 1 l := by
  obtain ⟨hone, hlt, -⟩ := nextNumber_bounds 1 fun p hp => (by
    have := hnum p hp
    omega : p.1.number + 1 < 2 ^ 64)
  exact ⟨hone, hlt⟩

/-- The files of a directory without a log after a new one was created. -/
theorem Tidy.newLog {l : List FileEntry} (h : Tidy l) (hnum : ∀ p ∈ l, p.1.number + 2 < 2 ^ 64)
    (hmax : maxLogNumber 0 l = 0) :
    Tidy (l.filter MiniLevelDB.kept ++ [(⟨nextNumber 1 l, .kLogFile⟩, [])]) := by
  apply h.of_same_tables
  · rw [ofType_append_log, ofType_kept (by decide)]
  · rw [ofType_append, ofType_kept (by decide), h.no_log hmax]
    simp
  · intro p hp
    rcases List.mem_append.mp hp with hp | hp
    · exact h.positive p (List.mem_of_mem_filter hp)
    · obtain rfl := List.mem_singleton.mp hp
      exact (one_le_nextNumber hnum).1

section

variable {dbname : Bytes} {fs : FileSystem} {l l' : List FileEntry} {db : DBImpl}

theorem Opened.tables_eq (h : Opened dbname fs l l' db) :
    ofType .kTableFile l' = ofType .kTableFile l := by
  rcases h.contents with ⟨-, rfl, -⟩ | ⟨-, hcut, -⟩
  · rw [ofType_append_log, ofType_kept (by decide)]
  · rw [ofType_cutting (by decide) (hcut.imp fun _ _ => Cut.cutting), ofType_kept (by decide)]

/-- A database that was opened rests on its files. -/
theorem Opened.standing (h : Opened dbname fs l l' db) (hnum : ∀ p ∈ l, p.1.number + 2 < 2 ^ 64) :
    ∃ b, Standing dbname fs l' b db := by
  obtain ⟨b, hb, hfile, hlog⟩ := h.log
  obtain ⟨-, hlt⟩ := one_le_nextNumber hnum
  refine ⟨b, h.dir, h.name_eq, ?_, hb, hfile, ⟨_, hlog, rfl, LogWriter.inStep_new _ _⟩, ?_⟩
  · intro p hp
    rcases h.contents with ⟨-, rfl, -, hnext, -⟩ | ⟨-, hcut, -, hnext, -⟩
    · rw [hnext]
      rcases List.mem_append.mp hp with hp | hp
      · exact (hlt p (List.mem_of_mem_filter hp)).trans (Nat.lt_succ_self _)
      · obtain rfl := List.mem_singleton.mp hp
        exact Nat.lt_succ_self _
    · rw [hnext]
      have hmem : p.1 ∈ (l.filter kept).map Prod.fst := by
        rw [← map_fst_cutting (hcut.imp fun _ _ => Cut.cutting)]
        exact List.mem_map_of_mem hp
      obtain ⟨q, hq, heq⟩ := List.mem_map.mp hmem
      rw [← heq]
      exact hlt q (List.mem_of_mem_filter hq)
  · rw [tableContents, h.tables_eq]
    exact h.tables

end

/-! ### The calls on the files -/

theorem tidy_logAfter {l : List FileEntry} {db : DBImpl} {b : Bytes} (h : Tidy l)
    (hb : (⟨db.log_number, .kLogFile⟩, b) ∈ l) (x : Bytes) :
    Tidy (db.logAfter b x l) ∧ Grows l (db.logAfter b x l) := by
  have htables : ofType .kTableFile (db.logAfter b x l) = ofType .kTableFile l :=
    ofType_setContent_ne (by simp) _ l
  refine ⟨h.of_same_tables htables ?_ ?_, Grows.of_eq htables⟩
  · rw [DBImpl.logAfter, @ofType_setContent ⟨db.log_number, .kLogFile⟩ l b (h.log_eq hb) (b ++ x)]
    exact le_refl 1
  · intro p hp
    obtain ⟨q, hq, heq⟩ := exists_of_mem_setContent hp
    rw [← heq]
    exact h.positive q hq

theorem Grows.trans {l₁ l₂ l₃ : List FileEntry} (h : Grows l₁ l₂) (h' : Grows l₂ l₃)
    (hsub : ∀ p ∈ l₁, ∃ q ∈ l₂, q.1 = p.1) : Grows l₁ l₃ := by
  obtain ⟨new, heq, hnew⟩ := h
  obtain ⟨new', heq', hnew'⟩ := h'
  refine ⟨new ++ new', ?_, ?_⟩
  · rw [heq', heq, List.append_assoc]
  · intro t ht p hp
    rcases List.mem_append.mp ht with ht | ht
    · exact hnew t ht p hp
    · obtain ⟨q, hq, hqp⟩ := hsub p hp
      rw [← hqp]
      exact hnew' t ht q hq

theorem exists_mem_logAfter {l : List FileEntry} (db : DBImpl) (b x : Bytes) :
    ∀ p ∈ l, ∃ q ∈ db.logAfter b x l, q.1 = p.1 := by
  intro p hp
  have hmem : p.1 ∈ (db.logAfter b x l).map Prod.fst := by
    rw [DBImpl.logAfter, map_fst_setContent]
    exact List.mem_map_of_mem hp
  obtain ⟨q, hq, heq⟩ := List.mem_map.mp hmem
  exact ⟨q, hq, heq⟩

theorem number_logAfter {l : List FileEntry} {db : DBImpl} {n : ℕ} (h : ∀ p ∈ l, p.1.number < n)
    (b x : Bytes) : ∀ p ∈ db.logAfter b x l, p.1.number < n := by
  intro p hp
  obtain ⟨q, hq, heq⟩ := exists_of_mem_setContent hp
  rw [← heq]
  exact h q hq

/-- A write that fills the memtable, and the flush behind it. -/
theorem Tidy.filling {l l' : List FileEntry} {db : DBImpl} {b : Bytes} {op : WriteOp} {es : List Entry}
    (h : Tidy l) (hb : (⟨db.log_number, .kLogFile⟩, b) ∈ l) (hnew : ∀ p ∈ l, p.1.number < db.next_file_number)
    (hf : Flushing ⟨db.log_number, .kLogFile⟩ db.next_file_number (tableBytes es) (db.logged b op l) l') :
    Tidy l' ∧ Grows l l' := by
  obtain ⟨htidy, hgrows⟩ := tidy_logAfter h hb (LogWriter.recordBytes b.length (db.batchOf op).rep)
  obtain ⟨htidy', hgrows'⟩ := htidy.flushing (mem_setContent_self hb) (number_logAfter hnew b _) hf
  exact ⟨htidy', hgrows.trans hgrows' (exists_mem_logAfter db b _)⟩

theorem Tidy.scanning {l pre post : List FileEntry} (h : Tidy l) (hl : l = pre ++ post) :
    Tidy (pre.filter MiniLevelDB.kept ++ post) ∧ Grows l (pre.filter MiniLevelDB.kept ++ post) := by
  have hsame : ∀ type ≠ FileType.kTempFile,
      ofType type (pre.filter MiniLevelDB.kept ++ post) = ofType type l := by
    intro type htype
    rw [hl, ofType_append, ofType_kept htype, ofType_append]
  refine ⟨h.of_same_tables (hsame _ (by decide)) ?_ ?_, Grows.of_eq (hsame _ (by decide))⟩
  · rw [hsame _ (by decide)]
    exact h.one_log
  · intro p hp
    apply h.positive p
    rw [hl]
    rcases List.mem_append.mp hp with hp | hp
    · exact List.mem_append_left _ (List.mem_of_mem_filter hp)
    · exact List.mem_append_right _ hp

theorem Grows.cutting {l l' : List FileEntry} (h : List.Forall₂ Cutting (l.filter kept) l') :
    Grows l l' := by
  apply Grows.of_eq
  rw [ofType_cutting (by decide) h, ofType_kept (by decide)]

/-- What holds of the files between the calls. -/
structure Sound (dbname : Bytes) (w : World) (l : List FileEntry) : Prop where
  rests : Rests dbname w l
  tidy : Tidy l

theorem Sound.number {dbname : Bytes} {w : World} {l : List FileEntry} {db : DBImpl}
    (h : Sound dbname w l) (hdb : w.db = some db) : ∀ p ∈ l, p.1.number < db.next_file_number := by
  obtain ⟨b, hst⟩ := h.rests.2 db hdb
  exact hst.number

/-- A crash leaves a directory as it should be. -/
theorem leaves_tidy {dbname : Bytes} {w : World} {l l' : List FileEntry} {call : Call}
    (h : Sound dbname w l) (hroom : LeavesRoom dbname w) (hleaves : Leaves l w.db call l') :
    Tidy l' ∧ Grows l l' := by
  obtain ⟨fs, open?⟩ := w
  have hnum := hroom.1 l h.rests.1
  cases hleaves with
  | scanning hl => exact h.tidy.scanning hl
  | cutting hcut => exact ⟨h.tidy.kept.cutting hcut, Grows.cutting hcut⟩
  | creating hmax =>
      refine ⟨h.tidy.newLog hnum hmax, Grows.of_eq ?_⟩
      rw [ofType_append_log, ofType_kept (by decide)]
  | logging hb hx => exact tidy_logAfter h.tidy hb _
  | filling hb hf => exact h.tidy.filling hb (h.number rfl) hf
  | flushing hf =>
      obtain ⟨b, hst⟩ := h.rests.2 _ rfl
      exact h.tidy.flushing hst.log_mem hst.number hf
  | closing => exact ⟨h.tidy, Grows.of_eq rfl⟩

theorem Standing.rests {dbname : Bytes} {fs : FileSystem} {l : List FileEntry} {b : Bytes} {db : DBImpl}
    (h : Standing dbname fs l b db) : Rests dbname ⟨fs, some db⟩ l := by
  refine ⟨h.dir, ?_⟩
  rintro _ ⟨⟩
  exact ⟨b, h⟩

theorem rests_closed {dbname : Bytes} {fs : FileSystem} {l : List FileEntry} (h : Dir dbname fs l) :
    Rests dbname ⟨fs, none⟩ l := ⟨h, fun _ hdb => by cases hdb⟩

/-- The database that is open when a call is over rests on the files. -/
theorem ends_rests {dbname : Bytes} {fs : FileSystem} {l l' : List FileEntry} {call : Call} {s : Status}
    {db db' : Option DBImpl} (hnum : ∀ p ∈ l, p.1.number + 2 < 2 ^ 64) (hdir : Dir dbname fs l')
    (hends : Ends dbname fs l db call s l' db') : Rests dbname ⟨fs, db'⟩ l' := by
  cases hends with
  | opened hopened =>
      obtain ⟨b, hst⟩ := hopened.standing hnum
      exact hst.rests
  | refused _ _ _ => exact rests_closed hdir
  | rejected _ _ hlogged _ => exact hlogged.standing.rests
  | written _ _ hlogged _ _ => exact hlogged.standing.rests
  | filled _ _ _ _ _ _ hflushed => exact hflushed.standing.rests
  | flushed _ _ hflushed => exact hflushed.standing.rests
  | unchanged _ hst => exact hst.rests
  | closed => exact rests_closed hdir

theorem ends_sound {dbname : Bytes} {w : World} {fs : FileSystem} {l l' : List FileEntry} {call : Call}
    {s : Status} {db : Option DBImpl} (h : Sound dbname w l) (hroom : LeavesRoom dbname w)
    (hdir : Dir dbname fs l') (hends : Ends dbname fs l w.db call s l' db) :
    Sound dbname ⟨fs, db⟩ l' ∧ Grows l l' := by
  obtain ⟨htidy, hgrows⟩ := leaves_tidy h hroom hends.leaves
  exact ⟨⟨ends_rests (hroom.1 l h.rests.1) hdir hends, htidy⟩, hgrows⟩

theorem step_sound {dbname : Bytes} {w w' : World} {l : List FileEntry} {call : Call} {s : Option Status}
    (h : Sound dbname w l) (hroom : LeavesRoom dbname w) (hstep : Step dbname w call s w') :
    ∃ l', Sound dbname w' l' ∧ Grows l l' := by
  obtain ⟨l', hdir', ⟨s', -, hends⟩ | ⟨-, hclosed, hleaves⟩⟩ := step_cases h.rests hroom hstep
  · exact ⟨l', ends_sound h hroom hdir' hends⟩
  · obtain ⟨htidy, hgrows⟩ := leaves_tidy h hroom hleaves
    obtain ⟨fs', db'⟩ := w'
    obtain rfl : db' = none := hclosed
    exact ⟨l', ⟨rests_closed hdir', htidy⟩, hgrows⟩

theorem reach_sound {dbname : Bytes} {w : World} {made : List (Call × Option Status)}
    (h : Reach dbname (fun w _ => LeavesRoom dbname w) w made) : ∃ l, Sound dbname w l := by
  induction h with
  | start hdir => exact ⟨[], rests_closed hdir, Tidy.nil⟩
  | step _ hroom hstep ih =>
      obtain ⟨l, hsound⟩ := ih
      obtain ⟨l', hsound', -⟩ := step_sound hsound hroom hstep
      exact ⟨l', hsound'⟩

end MiniLevelDB
