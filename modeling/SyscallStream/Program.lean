import SyscallStream.Catalog
import SyscallStream.Format

/-!
Programs: calls with their arguments and memory transfers, and the initial variables.
-/

namespace SyscallStream

/-- A number, possibly a bit field of one, to which a multiple of the process number is added. -/
structure ConstArg where
  size : UInt8
  format : NumberFormat
  value : UInt64
  bitfieldOffset : UInt8
  bitfieldLength : UInt8
  pidStride : UInt32
  deriving BEq, ReflBEq, LawfulBEq, DecidableEq, Repr

/-- The value of a variable, divided by `divOp` and increased by `addOp`. -/
structure ResultArg where
  size : UInt8
  format : NumberFormat
  index : UInt64
  divOp : UInt64
  addOp : UInt64
  /-- The variable's value before any call has set it. -/
  fallback : UInt64
  deriving BEq, ReflBEq, LawfulBEq, DecidableEq, Repr

structure DataArg where
  bytes : Bytes
  readable : Bool
  deriving BEq, ReflBEq, LawfulBEq, DecidableEq, Repr

structure Chunk where
  kind : ChunkKind
  value : UInt64
  size : UInt64
  deriving BEq, ReflBEq, LawfulBEq, DecidableEq, Repr

structure ChecksumArg where
  size : UInt64
  kind : ChecksumKind
  chunks : List Chunk
  deriving BEq, ReflBEq, LawfulBEq, DecidableEq, Repr

inductive Arg where
  | const (arg : ConstArg)
  | result (arg : ResultArg)
  | data (arg : DataArg)
  | checksum (arg : ChecksumArg)
  deriving BEq, ReflBEq, LawfulBEq, DecidableEq, Repr

def Arg.kind : Arg → ArgKind
  | .const _ => .const
  | .result _ => .result
  | .data _ => .data
  | .checksum _ => .checksum

/-- Only scalars are passed to a call directly; the rest is written to memory first. -/
def Arg.isScalar : Arg → Bool
  | .const _ | .result _ => true
  | .data _ | .checksum _ => false

/-- An argument written to memory before a call. -/
structure Copyin where
  addr : UInt64
  arg : Arg
  deriving BEq, ReflBEq, LawfulBEq, DecidableEq, Repr

/-- A variable read from memory after a call. -/
structure Copyout where
  index : UInt64
  addr : UInt64
  size : UInt64
  deriving BEq, ReflBEq, LawfulBEq, DecidableEq, Repr

structure Call where
  syscall : Syscall
  /-- The variable that receives the return value, or `noResult`. -/
  index : UInt64
  args : List Arg
  copyin : List Copyin
  copyout : List Copyout
  deriving BEq, ReflBEq, LawfulBEq, DecidableEq, Repr

def Call.resultIndex? (call : Call) : Option UInt64 :=
  if call.index = noResult then none else some call.index

structure Program where
  calls : List Call
  /-- One slot for every variable, holding its value before any call. -/
  vars : List UInt64
  deriving BEq, ReflBEq, LawfulBEq, DecidableEq, Repr

end SyscallStream
