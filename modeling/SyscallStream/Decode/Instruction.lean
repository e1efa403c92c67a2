import SyscallStream.Decode.State

/-!
Reading one instruction of a stream.
-/

namespace SyscallStream

namespace Decoder

def operand : Decoder Arg := do
  let arg ← onCursor Arg.read
  match arg with
  | .result result => assign result.index result.fallback
  | _ => pure ()
  return arg

def operands : (count position : Nat) → Decoder Unit
  | 0, _ => return
  | count + 1, position => do
    let arg ← operand
    if arg.isScalar then
      pushArg arg
      operands count (position + 1)
    else
      throw (.badCallArg (← get).calls.size position arg.kind)

def lookup (catalog : Catalog) (word : UInt64) : Decoder Syscall :=
  match catalog.entry? word with
  | none => throw (.badSyscall word catalog.size)
  | some syscall =>
    if syscall.id = word then return syscall else throw (.idMismatch word syscall.id)

def call (catalog : Catalog) (word : UInt64) : Decoder Unit := do
  let syscall ← lookup catalog word
  let index ← onCursor readWord
  start syscall index
  let count ← onCursor readWord
  operands count.toNat 0

/-- Reads one instruction, and tells whether another one follows. -/
def instruction (catalog : Catalog) : Decoder Bool := do
  let word ← onCursor readWord
  match Opcode.ofWord word with
  | .stop =>
    commit
    return false
  | .copyin =>
    commit
    let addr ← onCursor readWord
    let arg ← operand
    pushCopyin { addr, arg }
    return true
  | .copyout =>
    let index ← onCursor readWord
    let addr ← onCursor readWord
    let size ← onCursor readWord
    pushCopyout { index, addr, size }
    return true
  | .call word =>
    commit
    call catalog word
    return true

end Decoder

end SyscallStream
