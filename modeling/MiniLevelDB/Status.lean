import MiniLevelDB.Slice

/-! # Status

`Status` carries a code and a message; the messages are byte strings because `NotFound` reports
the key and the I/O errors report paths. -/

namespace MiniLevelDB

inductive Code where
  | kOk
  | kNotFound
  | kCorruption
  | kNotSupported
  | kInvalidArgument
  | kIOError
deriving DecidableEq, Repr

structure Status where
  code : Code
  msg : Bytes
deriving DecidableEq, Repr

namespace Status

def OK : Status := ⟨.kOk, []⟩
def notFound (msg : Bytes) : Status := ⟨.kNotFound, msg⟩
def corruption (msg : String) : Status := ⟨.kCorruption, ascii msg⟩
def invalidArgument (msg : String) : Status := ⟨.kInvalidArgument, ascii msg⟩
def ioError (msg : Bytes) : Status := ⟨.kIOError, msg⟩

/-- `Status::ok`. -/
def ok (s : Status) : Bool := s.code == .kOk

@[simp] theorem ok_OK : OK.ok = true := rfl
@[simp] theorem ok_notFound (msg : Bytes) : (notFound msg).ok = false := rfl
@[simp] theorem ok_corruption (msg : String) : (corruption msg).ok = false := rfl
@[simp] theorem ok_invalidArgument (msg : String) : (invalidArgument msg).ok = false := rfl
@[simp] theorem ok_ioError (msg : Bytes) : (ioError msg).ok = false := rfl

end Status
end MiniLevelDB
