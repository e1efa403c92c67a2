import SyscallStream.Json.Text
import SyscallStream.Program

/-!
Programs as JSON. An argument starts with its kind; formats and chunk kinds are their codes.
-/

namespace SyscallStream

def ConstArg.members (arg : ConstArg) : List (String × Json) :=
  [("size", .nat arg.size.toNat), ("format", .nat arg.format.code.toNat), ("value", .word arg.value),
    ("bitfield_offset", .nat arg.bitfieldOffset.toNat),
    ("bitfield_length", .nat arg.bitfieldLength.toNat), ("pid_stride", .nat arg.pidStride.toNat)]

def ResultArg.members (arg : ResultArg) : List (String × Json) :=
  [("size", .nat arg.size.toNat), ("format", .nat arg.format.code.toNat), ("index", .word arg.index),
    ("div_op", .word arg.divOp), ("add_op", .word arg.addOp), ("default", .word arg.fallback)]

def DataArg.members (arg : DataArg) : List (String × Json) :=
  [("data", .array (arg.bytes.map fun b => .nat b.toNat)), ("readable", .bool arg.readable)]

def ChecksumKind.name : ChecksumKind → String
  | .inet => "inet"

def Chunk.json (chunk : Chunk) : Json :=
  .object [("kind", .word chunk.kind.code), ("value", .word chunk.value), ("size", .word chunk.size)]

def ChecksumArg.members (arg : ChecksumArg) : List (String × Json) :=
  [("size", .word arg.size), ("kind", .string arg.kind.name),
    ("chunks", .array (arg.chunks.map Chunk.json))]

def Arg.members : Arg → List (String × Json)
  | .const arg => arg.members
  | .result arg => arg.members
  | .data arg => arg.members
  | .checksum arg => arg.members

def Arg.json (arg : Arg) : Json := .object (("kind", .string arg.kind.name) :: arg.members)

def Copyin.json (copyin : Copyin) : Json :=
  .object [("addr", .word copyin.addr), ("arg", copyin.arg.json)]

def Copyout.json (copyout : Copyout) : Json :=
  .object [("index", .word copyout.index), ("addr", .word copyout.addr), ("size", .word copyout.size)]

def Call.json (call : Call) : Json :=
  .object [("syscall", .string call.syscall.name), ("index", .word call.index),
    ("args", .array (call.args.map Arg.json)), ("copyin", .array (call.copyin.map Copyin.json)),
    ("copyout", .array (call.copyout.map Copyout.json))]

def Program.json (program : Program) : Json :=
  .object [("calls", .array (program.calls.map Call.json)), ("vars", .array (program.vars.map Json.word))]

end SyscallStream
