import SyscallStream.Numeral
import SyscallStream.Program

/-!
Programs as text for a reader, one line each for every call, argument and transfer.
-/

namespace SyscallStream

def shownBytes : Nat := 64

def NumberFormat.text (format : NumberFormat) : String :=
  format.name?.getD ("format#" ++ decimal format.code.toNat)

def ConstArg.text (arg : ConstArg) : String :=
  "Const(Size: " ++ decimal arg.size.toNat ++ ", Value: " ++ hexadecimal arg.value.toNat ++
    ", Format: " ++ arg.format.text ++
    (if arg.bitfieldLength = 0 then ""
      else ", Bitfield: " ++ decimal arg.bitfieldOffset.toNat ++ "+" ++
        decimal arg.bitfieldLength.toNat) ++
    (if arg.pidStride = 0 then "" else ", PidStride: " ++ decimal arg.pidStride.toNat) ++ ")"

def ResultArg.text (arg : ResultArg) : String :=
  "Result(Size: " ++ decimal arg.size.toNat ++ ", Index: " ++ decimal arg.index.toNat ++
    ", DivOp: " ++ decimal arg.divOp.toNat ++ ", AddOp: " ++ decimal arg.addOp.toNat ++
    ", Default: " ++ decimal arg.fallback.toNat ++ ")"

def DataArg.text (arg : DataArg) : String :=
  "Data(Size: " ++ decimal arg.bytes.length ++ ", Readable: " ++
    (if arg.readable then "true" else "false") ++ ", Data: " ++
    hexBytes (arg.bytes.take shownBytes) ++
    (if shownBytes < arg.bytes.length then "..." else "") ++ ")"

def ChecksumKind.text : ChecksumKind → String
  | .inet => "Inet"

def Chunk.text (chunk : Chunk) : String :=
  chunk.kind.name?.getD ("chunk#" ++ decimal chunk.kind.code.toNat) ++
    "(" ++ hexadecimal chunk.value.toNat ++ ", " ++ decimal chunk.size.toNat ++ ")"

def ChecksumArg.text (arg : ChecksumArg) : String :=
  "Csum(Size: " ++ decimal arg.size.toNat ++ ", Kind: " ++ arg.kind.text ++ ", Chunks: [" ++
    commaSeparated (arg.chunks.map Chunk.text) ++ "])"

def Arg.text : Arg → String
  | .const arg => arg.text
  | .result arg => arg.text
  | .data arg => arg.text
  | .checksum arg => arg.text

def Copyin.line (copyin : Copyin) : String :=
  "      Addr: " ++ hexadecimal copyin.addr.toNat ++ ", Arg: " ++ copyin.arg.text

def Copyout.line (copyout : Copyout) : String :=
  "      Index: " ++ decimal copyout.index.toNat ++ ", Addr: " ++ hexadecimal copyout.addr.toNat ++
    ", Size: " ++ decimal copyout.size.toNat

def Arg.line (position : Nat) (arg : Arg) : String :=
  "      Arg " ++ decimal position ++ ": " ++ arg.text

def Call.syscallLine (call : Call) : String :=
  "    Syscall: " ++ call.syscall.name ++ " (Index: " ++
    (match call.resultIndex? with
      | some index => decimal index.toNat
      | none => "none") ++ ")"

def Call.lines (position : Nat) (call : Call) : List String :=
  ["  Call " ++ decimal position ++ ":", call.syscallLine, "    Args:"] ++
    call.args.mapIdx Arg.line ++
    ["    Copyin:"] ++ call.copyin.map Copyin.line ++
    ["    Copyout:"] ++ call.copyout.map Copyout.line

def Program.lines (program : Program) : List String :=
  ["ExecProg:", "  Vars: [" ++ commaSeparated (program.vars.map fun v => decimal v.toNat) ++ "]"] ++
    (program.calls.mapIdx Call.lines).flatten

def Program.text (program : Program) : String := String.join (program.lines.map (· ++ "\n"))

end SyscallStream
