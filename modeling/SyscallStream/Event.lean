import SyscallStream.Error

/-!
The log of a decoding: one event for every finished call, then one for the verdict.
-/

namespace SyscallStream

inductive Event where
  | committed (position : Nat) (syscall : String) (args copyin copyout : Nat)
  /-- The stream of `size` bytes is refused; `offset?` is there when it was found while reading. -/
  | rejected (error : DecodeError) (offset? : Option Nat) (size : Nat)
  | decoded (calls vars size : Nat)
  deriving DecidableEq, Repr

inductive Level where
  | trace
  | debug
  deriving DecidableEq, Repr

def Level.name : Level → String
  | .trace => "trace"
  | .debug => "debug"

def Event.level : Event → Level
  | .committed .. | .decoded .. => .trace
  | .rejected .. => .debug

def Event.message : Event → String
  | .committed .. => "committed exec call"
  | .rejected error .. => "rejected exec program: " ++ error.message
  | .decoded .. => "decoded exec program"

end SyscallStream
