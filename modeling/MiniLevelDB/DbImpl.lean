import MiniLevelDB.FileName
import MiniLevelDB.LogReader
import MiniLevelDB.Table
import MiniLevelDB.WriteBatch

/-! # The database

`db/db_impl.cc`: opening a directory, replaying its logs, writing, flushing the memtable into a table,
and reading through the layers.  A database is changed by passing the new one on; an error leaves
the members as they were set up to it.

Open tables read the files they were opened on, which nobody writes any more, so their streams need
no operations of their own. -/

namespace MiniLevelDB

open Effect Posix

def kMaxMemTableBytes : ℕ := 4 * 1024 * 1024

/-- The calls `MemTableInserter` makes. -/
def MemTable.insertAll (m : MemTable) (calls : List (ℕ × WriteOp)) : MemTable :=
  calls.foldl (fun m c => m.add c.1 c.2.type c.2.key c.2.value) m

structure DBImpl where
  dbname : Bytes
  log_number : ℕ
  log_file : Option FILE
  log : Option LogWriter
  mem : MemTable
  tables : List Table
  last_seq : ℕ
  next_file_number : ℕ

namespace DBImpl

/-- `DBImpl(dbname)`. -/
def new (dbname : Bytes) : DBImpl := ⟨dbname, 0, none, none, MemTable.empty, [], 0, 1⟩

/-! ### Recovery -/

/-- The loop of `Recover`: its status, the memtable, the greatest sequence number and the reader. -/
def replay (r : LogReader) (mem : MemTable) (seq : ℕ) : Status × MemTable × ℕ × LogReader :=
  match h : r.readRecord with
  | (none, r') => (Status.OK, mem, seq, r')
  | (some record, r') =>
      have : r'.unread < r.unread := by
        have := LogReader.readRecordLoop_lt r [] false (by rw [← LogReader.readRecord, h]; rfl)
        rwa [← LogReader.readRecord, h] at this
      match WriteBatch.setContents record with
      | .error _ => (Status.OK, mem, seq, r')
      | .ok batch =>
          let mem := mem.insertAll batch.iterate.2
          if !batch.iterate.1.ok then (batch.iterate.1, mem, seq, r')
          else if batch.count > 0 then
            let last := (((batch.sequence : ℤ) + batch.count - 1) % 2 ^ 64).toNat
            replay r' mem (if last > seq then last else seq)
          else replay r' mem seq
termination_by r.unread

/-- `Recover`; the last component is `*max_seq`. -/
def recover (db : DBImpl) (file : FILE) (max_seq : ℕ) : FileProg (Status × DBImpl × ℕ) :=
  snapshot file >>= fun f =>
    let result := replay (LogReader.new (f.pread 0 f.size)) db.mem 0
    let db := { db with mem := result.2.1 }
    if !result.1.ok then .ret (result.1, db, max_seq)
    else
      ftruncate file result.2.2.2.valid_end >>= fun done =>
        if !done then .ret (Status.ioError (ascii "truncate log tail failed"), db, result.2.2.1)
        else .ret (Status.OK, db, result.2.2.1)

/-! ### Opening -/

/-- The scan of `Init`: the next file number, orphans removed, the greatest log number. -/
def scanFiles (db : DBImpl) (max_log_number : ℕ) : List FileInfo → FileProg (Status × DBImpl × ℕ)
  | [] => .ret (Status.OK, db, max_log_number)
  | f :: files =>
      let db := if f.number ≥ db.next_file_number
        then { db with next_file_number := (f.number + 1) % 2 ^ 64 } else db
      match f.type with
      | .kTempFile =>
          remove (tempFileName db.dbname f.number) >>= fun removed =>
            if !removed then .ret (Status.ioError (ascii "remove orphan tmp failed"), db, max_log_number)
            else scanFiles db max_log_number files
      | .kLogFile => scanFiles db (if f.number > max_log_number then f.number else max_log_number) files
      | .kTableFile => scanFiles db max_log_number files

/-- The loop of `Init` that opens the tables, over the files in descending order. -/
def mountTables (db : DBImpl) : List FileInfo → FileProg (Status × DBImpl)
  | [] => .ret (Status.OK, db)
  | f :: files =>
      if f.type ≠ .kTableFile then mountTables db files
      else
        Table.openTable (tableFileName db.dbname f.number) >>= fun
        | .error s => .ret (s, db)
        | .ok table => mountTables { db with tables := db.tables ++ [table] } files

/-- The loop of `Init` that replays the logs; the last one stays open for writing. -/
def replayLogs (db : DBImpl) (max_log_number seq : ℕ) : List FileInfo → FileProg (Status × DBImpl × ℕ)
  | [] => .ret (Status.OK, db, seq)
  | f :: files =>
      if f.type ≠ .kLogFile then replayLogs db max_log_number seq files
      else
        let path := logFileName db.dbname f.number
        fopen path (if f.number = max_log_number then .ab else .rpb) >>= fun opened =>
          if !opened then .ret (Status.ioError (ascii "open log failed: " ++ path), db, seq)
          else
            db.recover path seq >>= fun (s, db, seq) =>
              if !s.ok then fclose path >>= fun _ => .ret (s, db, seq)
              else if f.number = max_log_number then
                ftell path >>= fun off =>
                  replayLogs { db with
                    log_number := f.number
                    log_file := some path
                    log := some (LogWriter.new path (off.getD (2 ^ 64 - 1))) } max_log_number seq files
              else fclose path >>= fun _ => replayLogs db max_log_number seq files

/-- `Init`. -/
def init (db : DBImpl) : FileProg (Status × DBImpl) :=
  mkdir db.dbname >>= fun _ =>
  listFiles db.dbname >>= fun
  | .error _ => .ret (Status.ioError (ascii "scan dir failed: " ++ db.dbname), db)
  | .ok files =>
      db.scanFiles 0 files >>= fun (s, db, max_log_number) =>
        if !s.ok then .ret (s, db)
        else
          db.mountTables files.reverse >>= fun (s, db) =>
            if !s.ok then .ret (s, db)
            else if max_log_number ≠ 0 then
              db.replayLogs max_log_number 0 files >>= fun (s, db, seq) =>
                if !s.ok then .ret (s, db) else .ret (Status.OK, { db with last_seq := seq })
            else
              let db := { db with
                log_number := db.next_file_number
                next_file_number := (db.next_file_number + 1) % 2 ^ 64 }
              let path := logFileName db.dbname db.log_number
              fopen path .ab >>= fun opened =>
                if !opened then .ret (Status.ioError (ascii "create log failed: " ++ path), db)
                else
                  .ret (Status.OK, { db with
                    log_file := some path, log := some (LogWriter.new path 0), last_seq := 0 })

/-- `~DBImpl`. -/
def close (db : DBImpl) : FileProg Unit :=
  match db.log_file with
  | none => .ret ()
  | some file => fflush file >>= fun _ => fclose file >>= fun _ => .ret ()

/-- `DB::Open`. -/
def openDB (name : Bytes) : FileProg (Except Status DBImpl) :=
  (new name).init >>= fun (s, db) =>
    if !s.ok then db.close >>= fun _ => .ret (.error s) else .ret (.ok db)

/-! ### Writing -/

/-- The last part of `FlushMemTable`: the old log goes, the new one comes, the memtable is renewed. -/
def replaceLog (db : DBImpl) (file : FILE) (new_log_number : ℕ) : FileProg (Status × DBImpl) :=
  let old_log_name := logFileName db.dbname db.log_number
  fflush file >>= fun _ =>
  fclose file >>= fun closed =>
    let db := { db with log_file := none, log := none }
    if !closed then .ret (Status.ioError (ascii "close old log failed: " ++ old_log_name), db)
    else
      remove old_log_name >>= fun removed =>
        if !removed then .ret (Status.ioError (ascii "remove old log failed: " ++ old_log_name), db)
        else
          let db := { db with log_number := new_log_number }
          let new_log_name := logFileName db.dbname db.log_number
          fopen new_log_name .ab >>= fun opened =>
            if !opened then
              .ret (Status.ioError (ascii "create new log failed: " ++ new_log_name), db)
            else
              .ret (Status.OK, { db with
                log_file := some new_log_name
                log := some (LogWriter.new new_log_name 0)
                mem := MemTable.empty })

/-- `FlushMemTable`. -/
def flushMemTable (db : DBImpl) : FileProg (Status × DBImpl) :=
  if db.mem.table = [] then .ret (Status.OK, db)
  else
    let table_number := db.next_file_number
    let new_log_number := (db.next_file_number + 1) % 2 ^ 64
    let db := { db with next_file_number := (db.next_file_number + 1 + 1) % 2 ^ 64 }
    let tmp_name := tempFileName db.dbname table_number
    fopen tmp_name .wb >>= fun opened =>
      if !opened then .ret (Status.ioError (ascii "create tmp table failed: " ++ tmp_name), db)
      else
        (TableBuilder.new tmp_name).buildFrom db.mem.table >>= fun (s, builder) =>
          builder.close >>= fun _ =>
            if !s.ok then .ret (s, db)
            else
              let table_name := tableFileName db.dbname table_number
              rename tmp_name table_name >>= fun renamed =>
                if !renamed then .ret (Status.ioError (ascii "rename tmp table failed: " ++ tmp_name), db)
                else
                  Table.openTable table_name >>= fun
                  | .error os => .ret (os, db)
                  | .ok table =>
                      let db := { db with tables := table :: db.tables }
                      match db.log_file with
                      | none => .fault .nullDeref
                      | some file => db.replaceLog file new_log_number

/-- `Write`. -/
def write (db : DBImpl) (batch : WriteBatch) : FileProg (Status × DBImpl) :=
  let batch := batch.set_sequence ((db.last_seq + 1) % 2 ^ 64)
  match db.log with
  | none => .fault .nullDeref
  | some log =>
      log.addRecord batch.rep >>= fun (s, log) =>
        let db := { db with log := some log }
        if !s.ok then .ret (s, db)
        else
          let db := { db with mem := db.mem.insertAll batch.iterate.2 }
          if !batch.iterate.1.ok then .ret (batch.iterate.1, db)
          else
            let db := { db with last_seq := (((db.last_seq : ℤ) + batch.count) % 2 ^ 64).toNat }
            if db.mem.approximateMemoryUsage ≥ kMaxMemTableBytes then db.flushMemTable
            else .ret (Status.OK, db)

/-- `Put`. -/
def put (db : DBImpl) (key value : Bytes) : FileProg (Status × DBImpl) :=
  db.write (WriteBatch.empty.put key value)

/-- `Delete`. -/
def delete (db : DBImpl) (key : Bytes) : FileProg (Status × DBImpl) :=
  db.write (WriteBatch.empty.delete key)

/-- `Put` or `Delete`. -/
def perform (db : DBImpl) : WriteOp → FileProg (Status × DBImpl)
  | .put key value => db.put key value
  | .delete key => db.delete key

theorem perform_eq (db : DBImpl) (op : WriteOp) : db.perform op = db.write (WriteBatch.ofOp op) := by
  cases op <;> rfl

/-! ### Reading -/

/-- The loop of `Get` over the tables. -/
def getFrom (key : Bytes) : List Table → Exec (Except Status Bytes)
  | [] => return .error (Status.notFound key)
  | t :: tables => do
      match ← t.get key with
      | .kValue value => return .ok value
      | .kDeleted => return .error (Status.notFound key)
      | .kNotFound => getFrom key tables

/-- `Get`: OK with the value, or the error status. -/
def get (db : DBImpl) (key : Bytes) : Exec (Except Status Bytes) :=
  match db.mem.get key with
  | .kValue value => return .ok value
  | .kDeleted => return .error (Status.notFound key)
  | .kNotFound => getFrom key db.tables

end DBImpl
end MiniLevelDB
