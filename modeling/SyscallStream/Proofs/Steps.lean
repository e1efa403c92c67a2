import SyscallStream.Decode

/-! Reading a stream over any steps. An instruction is read by the steps of its arguments and a few
more: variables get values, and the call being gathered grows. The text of the reading is the same
whatever carries out the steps; the decoder is one way to do so. -/

namespace SyscallStream

structure Steps (m : Type → Type) extends ArgSteps m where
  lookup (word : UInt64) : m Syscall
  assign (index value : UInt64) : m Unit
  commit : m Unit
  start (syscall : Syscall) (index : UInt64) : m Unit
  pushArg (arg : Arg) : m Unit
  pushCopyin (copyin : Copyin) : m Unit
  pushCopyout (copyout : Copyout) : m Unit
  finished : m Nat

namespace Steps

variable {m : Type → Type} [Monad m] (steps : Steps m)

def operand : m Arg := do
  let arg ← steps.arg
  match arg with
  | .result result => steps.assign result.index result.fallback
  | _ => pure ()
  return arg

def operands : (count position : Nat) → m Unit
  | 0, _ => return
  | count + 1, position => do
    let arg ← steps.operand
    if arg.isScalar then
      steps.pushArg arg
      operands count (position + 1)
    else
      steps.refuse (.badCallArg (← steps.finished) position arg.kind)

def call (word : UInt64) : m Unit := do
  let syscall ← steps.lookup word
  let index ← steps.word
  steps.start syscall index
  let count ← steps.word
  steps.operands count.toNat 0

def perform : Opcode → m Bool
  | .stop => do
    steps.commit
    return false
  | .copyin => do
    steps.commit
    let addr ← steps.word
    let arg ← steps.operand
    steps.pushCopyin { addr, arg }
    return true
  | .copyout => do
    let index ← steps.word
    let addr ← steps.word
    let size ← steps.word
    steps.pushCopyout { index, addr, size }
    return true
  | .call word => do
    steps.commit
    steps.call word
    return true

def instruction : m Bool := do
  let word ← steps.word
  steps.perform (Opcode.ofWord word)

end Steps

theorem ArgSteps.chunks_bind {m : Type → Type} [Monad m] [LawfulMonad m] (steps : ArgSteps m)
    {α : Type} (count : Nat) (buffer : ChunkBuffer) (rest : Array Chunk → m α) :
    (steps.chunks count buffer >>= fun filled => rest filled.chunks) =
      steps.chunks count { buffer with room := 0 } >>= fun filled => rest filled.chunks := by
  induction count generalizing buffer with
  | zero => simp only [chunks, pure_bind]
  | succ count ih =>
    simp only [chunks, bind_assoc]
    congr 1
    funext chunk
    exact ih (buffer.push chunk)

namespace Decoder

def steps (catalog : Catalog) : Steps Decoder where
  word := onCursor readWord
  blob size := onCursor (readBlob size)
  reserve count := onCursor (Chunk.reserve count)
  refuse error := throw error
  lookup := lookup catalog
  assign := assign
  commit := commit
  start := start
  pushArg := pushArg
  pushCopyin := pushCopyin
  pushCopyout := pushCopyout
  finished := do return (← get).calls.size

section OnCursor

variable {α β : Type}

theorem onCursor_bind (reader : Reader α) (next : α → Reader β) :
    onCursor (reader >>= next) = onCursor reader >>= fun a => onCursor (next a) := by
  funext s
  change onCursor (EStateM.bind reader next) s =
    EStateM.bind (onCursor reader) (fun a => onCursor (next a)) s
  unfold onCursor EStateM.bind
  cases ran : reader s.cursor <;> simp only [ran]

theorem onCursor_pure (a : α) : onCursor (pure a) = (pure a : Decoder α) := rfl

end OnCursor

variable {catalog : Catalog}

theorem constArg_steps : (steps catalog).constArg = onCursor ConstArg.read := by
  simp only [ArgSteps.constArg, ConstArg.read, onCursor_bind, onCursor_pure]
  rfl

theorem resultArg_steps : (steps catalog).resultArg = onCursor ResultArg.read := by
  simp only [ArgSteps.resultArg, ResultArg.read, onCursor_bind, onCursor_pure]
  rfl

theorem dataArg_steps : (steps catalog).dataArg = onCursor DataArg.read := by
  simp only [ArgSteps.dataArg, DataArg.read, onCursor_bind, onCursor_pure]
  rfl

theorem chunk_steps : (steps catalog).chunk = onCursor Chunk.read := by
  simp only [ArgSteps.chunk, Chunk.read, onCursor_bind, onCursor_pure]
  rfl

theorem chunks_steps (count : Nat) (buffer : ChunkBuffer) :
    (steps catalog).chunks count buffer = onCursor (Chunk.readMany count buffer) := by
  induction count generalizing buffer with
  | zero => rfl
  | succ count ih =>
    simp only [ArgSteps.chunks, Chunk.readMany_succ, onCursor_bind, chunk_steps, ih]

theorem checksumArg_steps : (steps catalog).checksumArg = onCursor ChecksumArg.read := by
  simp only [ArgSteps.checksumArg, ChecksumArg.read_eq, onCursor_bind]
  congr 1
  funext size
  congr 1
  funext word
  cases ChecksumKind.ofWord? word with
  | none => rfl
  | some kind =>
    simp only [onCursor_bind, onCursor_pure, chunks_steps]
    rfl

theorem arg_steps : (steps catalog).arg = onCursor Arg.read := by
  simp only [ArgSteps.arg, Arg.read_eq, onCursor_bind]
  congr 1
  funext word
  cases ArgKind.ofWord? word with
  | none => rfl
  | some kind =>
    cases kind with
    | const => simp only [onCursor_bind, onCursor_pure, constArg_steps]
    | result => simp only [onCursor_bind, onCursor_pure, resultArg_steps]
    | data => simp only [onCursor_bind, onCursor_pure, dataArg_steps]
    | checksum => simp only [onCursor_bind, onCursor_pure, checksumArg_steps]

theorem operand_steps : (steps catalog).operand = operand := by
  rw [Steps.operand, arg_steps]
  rfl

theorem operands_steps (count position : Nat) :
    (steps catalog).operands count position = operands count position := by
  induction count generalizing position with
  | zero => rfl
  | succ count ih =>
    simp only [Steps.operands, operands, operand_steps, ih]
    rfl

theorem call_steps (word : UInt64) : (steps catalog).call word = call catalog word := by
  simp only [Steps.call, operands_steps]
  rfl

theorem instruction_steps (catalog : Catalog) :
    (steps catalog).instruction = instruction catalog := by
  unfold Steps.instruction instruction
  congr 1
  funext word
  cases Opcode.ofWord word with
  | stop => rfl
  | copyin =>
    simp only [Steps.perform, operand_steps]
    rfl
  | copyout => rfl
  | call id =>
    simp only [Steps.perform, call_steps]
    rfl

end Decoder

end SyscallStream
