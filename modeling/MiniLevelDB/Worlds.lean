import MiniLevelDB.Writing

/-! # Worlds and calls

A `World` is a disk with a database that may be open on it.  In a `Step` a call runs to its end, or a
crash cuts it off somewhere; `Reach` are the worlds of all runs that begin with an empty directory.
`call_wpg` says once what a call does to the files: `Leaves` lists what a crash may leave of them, and
`Ends` how the call may end.  What holds in every run is derived from these two. -/

namespace MiniLevelDB

open Effect
open LogWriter (recordBytes)

/-! ### Worlds and steps -/

/-- A disk, and the database that is open on it. -/
structure World where
  fs : FileSystem
  db : Option DBImpl

/-- The calls of a process that uses the database. -/
inductive Call where
  | openDB
  | perform (op : WriteOp)
  | flush
  | close

/-- What a call runs, where it can be made; it ends with its status and the database then open. -/
def Call.program (dbname : Bytes) : Call → Option DBImpl → Option (FileProg (Status × Option DBImpl))
  | .openDB, none => some (DBImpl.openDB dbname >>= fun
      | .error s => .ret (s, none)
      | .ok db => .ret (Status.OK, some db))
  | .perform op, some db => some (db.perform op >>= fun (s, db) => .ret (s, some db))
  | .flush, some db => some (db.flushMemTable >>= fun (s, db) => .ret (s, some db))
  | .close, some db => some (db.close >>= fun _ => .ret (Status.OK, none))
  | _, _ => none

/-- A call runs to its end and returns a status, or a crash cuts it off. -/
inductive Step (dbname : Bytes) : World → Call → Option Status → World → Prop
  | done {w : World} {call : Call} {p : FileProg (Status × Option DBImpl)} {s : Status}
      {db : Option DBImpl} {fs : FileSystem} : call.program dbname w.db = some p →
      p.run (disk offsetLimit) w.fs = .done (s, db) fs → Step dbname w call (some s) ⟨fs, db⟩
  | crash {w : World} {call : Call} {p : FileProg (Status × Option DBImpl)} {fs : FileSystem} :
      call.program dbname w.db = some p → p.Crash (disk offsetLimit) w.fs fs →
      Step dbname w call none ⟨fs, none⟩

/-- The worlds of the runs that begin with an empty directory and make calls with `P`, and the calls made
with the status each returned. -/
inductive Reach (dbname : Bytes) (P : World → Call → Prop) : World → List (Call × Option Status) → Prop
  | start {fs : FileSystem} : Dir dbname fs [] → Reach dbname P ⟨fs, none⟩ []
  | step {w w' : World} {made : List (Call × Option Status)} {call : Call} {s : Option Status} :
      Reach dbname P w made → P w call → Step dbname w call s w' →
      Reach dbname P w' (made ++ [(call, s)])

/-- Between the calls an open database rests on the files. -/
def Rests (dbname : Bytes) (w : World) (l : List FileEntry) : Prop :=
  Dir dbname w.fs l ∧ ∀ db, w.db = some db → ∃ b, Standing dbname w.fs l b db

/-- The counter of file numbers has two more to give, and so it will after a restart. -/
def LeavesRoom (dbname : Bytes) (w : World) : Prop :=
  (∀ l, Dir dbname w.fs l → ∀ p ∈ l, p.1.number + 2 < 2 ^ 64) ∧
    ∀ db, w.db = some db → db.next_file_number + 2 < 2 ^ 64

/-- Only opening may open a file for appending that is there. -/
def Call.reopens : Call → Bool
  | .openDB => true
  | _ => false

/-- The batch of a write. -/
def DBImpl.batchOf (db : DBImpl) (op : WriteOp) : WriteBatch :=
  (WriteBatch.ofOp op).set_sequence ((db.last_seq + 1) % 2 ^ 64)

/-- The memtable after a write. -/
def DBImpl.memAfter (db : DBImpl) (op : WriteOp) : MemTable := db.mem.insertAll (db.batchOf op).iterate.2

/-- The log of a database after bytes were appended to it. -/
def DBImpl.logAfter (db : DBImpl) (b x : Bytes) (l : List FileEntry) : List FileEntry :=
  setContent ⟨db.log_number, .kLogFile⟩ (b ++ x) l

/-- The log of a database after a write. -/
def DBImpl.logged (db : DBImpl) (b : Bytes) (op : WriteOp) (l : List FileEntry) : List FileEntry :=
  db.logAfter b (recordBytes b.length (db.batchOf op).rep) l

/-- What a crash during a call leaves of the files. -/
inductive Leaves (l : List FileEntry) : Option DBImpl → Call → List FileEntry → Prop
  | scanning {pre post : List FileEntry} : l = pre ++ post →
      Leaves l none .openDB (pre.filter kept ++ post)
  | cutting {l' : List FileEntry} : List.Forall₂ Cutting (l.filter kept) l' → Leaves l none .openDB l'
  | creating : maxLogNumber 0 l = 0 →
      Leaves l none .openDB (l.filter kept ++ [(⟨nextNumber 1 l, .kLogFile⟩, [])])
  | logging {db : DBImpl} {op : WriteOp} {b x : Bytes} : (⟨db.log_number, .kLogFile⟩, b) ∈ l →
      x <+: recordBytes b.length (db.batchOf op).rep →
      Leaves l (some db) (.perform op) (db.logAfter b x l)
  | filling {db : DBImpl} {op : WriteOp} {b : Bytes} {l' : List FileEntry} :
      (⟨db.log_number, .kLogFile⟩, b) ∈ l →
      Flushing ⟨db.log_number, .kLogFile⟩ db.next_file_number (tableBytes (db.memAfter op).table)
        (db.logged b op l) l' → Leaves l (some db) (.perform op) l'
  | flushing {db : DBImpl} {l' : List FileEntry} :
      Flushing ⟨db.log_number, .kLogFile⟩ db.next_file_number (tableBytes db.mem.table) l l' →
      Leaves l (some db) .flush l'
  | closing {db : DBImpl} : Leaves l (some db) .close l

/-- How a call may end, with the files and the database then open. -/
inductive Ends (dbname : Bytes) (fs : FileSystem) (l : List FileEntry) :
    Option DBImpl → Call → Status → List FileEntry → Option DBImpl → Prop
  | opened {l' : List FileEntry} {db' : DBImpl} : Opened dbname fs l l' db' →
      Ends dbname fs l none .openDB Status.OK l' (some db')
  | refused {l' : List FileEntry} {s : Status} : s.ok = false →
      List.Forall₂ Cutting (l.filter kept) l' →
      ((∃ b ∈ tableContents l, Table.load (RFile.ofBytes b) = .ok (.error s)) ∨
        ∃ b ∈ logContents l, s = DBImpl.replayStatus b) →
      Ends dbname fs l none .openDB s l' none
  | rejected {db db' : DBImpl} {op : WriteOp} {b : Bytes} : (⟨db.log_number, .kLogFile⟩, b) ∈ l →
      (db.batchOf op).iterate.1.ok = false → Logged dbname fs l b (db.batchOf op) db db' →
      db'.last_seq = db.last_seq →
      Ends dbname fs l (some db) (.perform op) (db.batchOf op).iterate.1 (db.logged b op l) (some db')
  | written {db db' : DBImpl} {op : WriteOp} {b : Bytes} : (⟨db.log_number, .kLogFile⟩, b) ∈ l →
      (db.batchOf op).iterate.1.ok = true → Logged dbname fs l b (db.batchOf op) db db' →
      db'.last_seq = seqBehind db (db.batchOf op) →
      db'.mem.approximateMemoryUsage < kMaxMemTableBytes →
      Ends dbname fs l (some db) (.perform op) Status.OK (db.logged b op l) (some db')
  | filled {db db₁ db' : DBImpl} {fs₁ : FileSystem} {op : WriteOp} {b : Bytes} :
      (⟨db.log_number, .kLogFile⟩, b) ∈ l →
      (db.batchOf op).iterate.1.ok = true → Logged dbname fs₁ l b (db.batchOf op) db db₁ →
      db₁.last_seq = seqBehind db (db.batchOf op) → kMaxMemTableBytes ≤ db₁.mem.approximateMemoryUsage →
      (tableBytes db₁.mem.table).length < 2 ^ 63 → Flushed dbname fs (db.logged b op l) db₁ db' →
      Ends dbname fs l (some db) (.perform op) Status.OK
        (flushed ⟨db₁.log_number, .kLogFile⟩ db₁.next_file_number (tableBytes db₁.mem.table)
          (db.logged b op l)) (some db')
  | flushed {db db' : DBImpl} : db.mem.table ≠ [] → (tableBytes db.mem.table).length < 2 ^ 63 →
      Flushed dbname fs l db db' →
      Ends dbname fs l (some db) .flush Status.OK
        (flushed ⟨db.log_number, .kLogFile⟩ db.next_file_number (tableBytes db.mem.table) l) (some db')
  | unchanged {db : DBImpl} {b : Bytes} : db.mem.table = [] → Standing dbname fs l b db →
      Ends dbname fs l (some db) .flush Status.OK l (some db)
  | closed {db : DBImpl} : Ends dbname fs l (some db) .close Status.OK l none

/-- A crash may come when the call is over. -/
theorem Ends.leaves {dbname : Bytes} {fs : FileSystem} {l l' : List FileEntry} {call : Call} {s : Status}
    {db db' : Option DBImpl} (h : Ends dbname fs l db call s l' db') : Leaves l db call l' := by
  cases h with
  | opened hopened =>
      rcases hopened.contents with ⟨hmax, rfl, -⟩ | ⟨-, hcuts, -⟩
      · exact .creating hmax
      · exact .cutting (hcuts.imp fun _ _ => Cut.cutting)
  | refused _ hcut _ => exact .cutting hcut
  | rejected hb _ _ _ => exact .logging hb (List.prefix_refl _)
  | written hb _ _ _ _ => exact .logging hb (List.prefix_refl _)
  | filled hb _ hlogged _ _ hlen _ =>
      apply Leaves.filling hb
      rw [hlogged.log_number, hlogged.next_file_number, hlogged.mem]
      rw [hlogged.mem] at hlen
      exact .relogged hlen
  | flushed _ hlen _ => exact .flushing (.relogged hlen)
  | unchanged _ _ => exact .flushing .before
  | closed => exact .closing

/-- The tables a call opens. -/
inductive Loads (l : List FileEntry) : Option DBImpl → Call → Bytes → Prop
  | mounted {b : Bytes} : b ∈ tableContents l → Loads l none .openDB b
  | filled {db : DBImpl} {op : WriteOp} : (tableBytes (db.memAfter op).table).length < 2 ^ 63 →
      Loads l (some db) (.perform op) (tableBytes (db.memAfter op).table)
  | flushed {db : DBImpl} : (tableBytes db.mem.table).length < 2 ^ 63 →
      Loads l (some db) .flush (tableBytes db.mem.table)

/-- A call comes to a fault in opening a table. -/
def Faults (l : List FileEntry) (db : Option DBImpl) (call : Call) : Prop :=
  ∃ b, Loads l db call b ∧ ∃ f, Table.load (RFile.ofBytes b) = .error f

theorem offsetLimit_lt (n : ℕ) (h : offsetLimit n = true) : n < 2 ^ 63 := of_decide_eq_true h

section

variable {dbname : Bytes} {fs : FileSystem} {l : List FileEntry} {b : Bytes} {db : DBImpl}

/-- What a crash leaves, as a condition on the disk. -/
def CrashLeaves (dbname : Bytes) (l : List FileEntry) (db : Option DBImpl) (call : Call)
    (fs : FileSystem) : Prop :=
  ∃ l', Dir dbname fs l' ∧ Leaves l db call l'

/-- How a call ends, as a postcondition. -/
def CallEnds (dbname : Bytes) (l : List FileEntry) (db : Option DBImpl) (call : Call)
    (r : Status × Option DBImpl) (fs : FileSystem) : Prop :=
  ∃ l', Dir dbname fs l' ∧ Ends dbname fs l db call r.1 l' r.2

/-- The rule of the end of a call. -/
theorem ends_wpg {reopen : Bool} {E : Prop} {l' : List FileEntry} {call : Call} {s : Status}
    {open? db' : Option DBImpl} (hdir : Dir dbname fs l') (h : Ends dbname fs l open? call s l' db') :
    (Prog.ret (s, db') : FileProg _).wpg (disk offsetLimit) (Safe reopen) E (CallEnds dbname l open? call)
      (CrashLeaves dbname l open? call) fs :=
  Prog.wpg_ret ⟨l', hdir, h.leaves⟩ ⟨l', hdir, h⟩

theorem openDB_call (hdir : Dir dbname fs l) (hnum : ∀ p ∈ l, p.1.number + 2 < 2 ^ 64) :
    (DBImpl.openDB dbname >>= fun
      | .error s => .ret (s, none)
      | .ok db => .ret (Status.OK, some db)).wpg (disk offsetLimit) (Safe true)
      (Faults l none .openDB) (CallEnds dbname l none .openDB) (CrashLeaves dbname l none .openDB) fs := by
  apply Prog.wpg_bind
  apply openDB_wpg hdir hnum
  · exact fun fs' pre post hl hdir' => ⟨_, hdir', .scanning hl⟩
  · exact fun fs' l' hcutting hdir' => ⟨l', hdir', .cutting hcutting⟩
  · exact fun hmax fs' hdir' => ⟨_, hdir', .creating hmax⟩
  · exact fun b hb f hf => ⟨b, .mounted hb, f, hf⟩
  · exact fun fs' l' s hs hcutting hdir' hwhy => ends_wpg hdir' (.refused hs hcutting hwhy)
  · exact fun fs' l' db' hopened => ends_wpg hopened.dir (.opened hopened)

theorem flush_call (hst : Standing dbname fs l b db) (hn : db.next_file_number + 2 < 2 ^ 64) :
    (db.flushMemTable >>= fun (s, db) => .ret (s, some db)).wpg (disk offsetLimit) (Safe false)
      (Faults l (some db) .flush) (CallEnds dbname l (some db) .flush)
      (CrashLeaves dbname l (some db) .flush) fs := by
  apply Prog.wpg_bind
  apply flushMemTable_wpg hst hn _ offsetLimit_lt
  · exact fun f hlen hf => ⟨_, .flushed hlen, f, hf⟩
  · exact fun hempty => ends_wpg hst.dir (.unchanged hempty hst)
  · exact fun fs' db' hne hlen hflushed => ends_wpg hflushed.standing.dir (.flushed hne hlen hflushed)
  · exact fun fs' l' hflushing hdir' => ⟨l', hdir', .flushing hflushing⟩

theorem perform_call (op : WriteOp) (hst : Standing dbname fs l b db)
    (hn : db.next_file_number + 2 < 2 ^ 64) :
    (db.perform op >>= fun (s, db) => .ret (s, some db)).wpg (disk offsetLimit) (Safe false)
      (Faults l (some db) (.perform op)) (CallEnds dbname l (some db) (.perform op))
      (CrashLeaves dbname l (some db) (.perform op)) fs := by
  rw [DBImpl.perform_eq]
  apply Prog.wpg_bind
  apply write_wpg (rfl : db.batchOf op = _) hst hn
  · exact fun fs' x hx hdir' => ⟨_, hdir', .logging hst.log_mem hx⟩
  · exact fun fs' l' hflushing hdir' => ⟨l', hdir', .filling hst.log_mem hflushing⟩
  · exact offsetLimit_lt
  · exact fun f hlen hf => ⟨_, .filled hlen, f, hf⟩
  · exact fun fs' db' hiter h hseq => ends_wpg h.standing.dir (.rejected hst.log_mem hiter h hseq)
  · intro fs' db' hiter h hseq husage
    exact ends_wpg h.standing.dir (.written hst.log_mem hiter h hseq husage)
  · intro fs₁ db₁ fs' db' hiter h hseq hfull hlen hflushed
    exact ends_wpg hflushed.standing.dir (.filled hst.log_mem hiter h hseq hfull hlen hflushed)

end

/-- **What a call does.** -/
theorem call_wpg {dbname : Bytes} {w : World} {l : List FileEntry} {call : Call}
    {p : FileProg (Status × Option DBImpl)} (h : Rests dbname w l) (hroom : LeavesRoom dbname w)
    (hp : call.program dbname w.db = some p) :
    p.wpg (disk offsetLimit) (Safe call.reopens) (Faults l w.db call) (CallEnds dbname l w.db call)
      (CrashLeaves dbname l w.db call) w.fs := by
  obtain ⟨fs, open?⟩ := w
  obtain ⟨hdir, hstanding⟩ := h
  obtain ⟨hnum, hnext⟩ := hroom
  cases open? with
  | none =>
      cases call with
      | openDB =>
          obtain rfl := Option.some.inj hp
          exact openDB_call hdir (hnum l hdir)
      | perform op => cases hp
      | flush => cases hp
      | close => cases hp
  | some db =>
      obtain ⟨b, hst⟩ := hstanding db rfl
      have hn := hnext db rfl
      cases call with
      | openDB => cases hp
      | perform op =>
          obtain rfl := Option.some.inj hp
          exact perform_call op hst hn
      | flush =>
          obtain rfl := Option.some.inj hp
          exact flush_call hst hn
      | close =>
          obtain rfl := Option.some.inj hp
          apply close_wpg ⟨l, hdir, .closing⟩
          exact ends_wpg hdir .closed

/-- What a step makes of the files `l`: the call has ended, or a crash has left something of them. -/
def Becomes (dbname : Bytes) (w : World) (l : List FileEntry) (call : Call) (s : Option Status) (w' : World)
    (l' : List FileEntry) : Prop :=
  (∃ s', s = some s' ∧ Ends dbname w'.fs l w.db call s' l' w'.db) ∨
    s = none ∧ w'.db = none ∧ Leaves l w.db call l'

theorem Becomes.leaves {dbname : Bytes} {w w' : World} {l l' : List FileEntry} {call : Call}
    {s : Option Status} (h : Becomes dbname w l call s w' l') : Leaves l w.db call l' := by
  rcases h with ⟨s', -, hends⟩ | ⟨-, -, hleaves⟩
  · exact hends.leaves
  · exact hleaves

/-- **What a step does.** -/
theorem step_cases {dbname : Bytes} {w w' : World} {l : List FileEntry} {call : Call} {s : Option Status}
    (h : Rests dbname w l) (hroom : LeavesRoom dbname w) (hstep : Step dbname w call s w') :
    ∃ l', Dir dbname w'.fs l' ∧ Becomes dbname w l call s w' l' := by
  cases hstep with
  | done hp hrun =>
      obtain ⟨l', hdir', hends⟩ := Prog.wpg_run (call_wpg h hroom hp) hrun
      exact ⟨l', hdir', Or.inl ⟨_, rfl, hends⟩⟩
  | crash hp hcrash =>
      obtain ⟨l', hdir', hleaves⟩ := Prog.wpg_crash (call_wpg h hroom hp) hcrash
      exact ⟨l', hdir', Or.inr ⟨rfl, rfl, hleaves⟩⟩

end MiniLevelDB
