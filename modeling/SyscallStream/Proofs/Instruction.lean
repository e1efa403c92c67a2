import SyscallStream.Program

/-! The instructions of a stream, and what instructions, calls and programs do to variables.

A result argument writes its fallback to its variable. A call that records its result and a copyout
only need their variable to exist. -/

namespace SyscallStream

/-- One instruction of a stream, before instructions are put together to calls. -/
inductive Instruction where
  | copyin (input : Copyin)
  | copyout (output : Copyout)
  | call (word index : UInt64) (args : List Arg)
  deriving DecidableEq, Repr

def Arg.writes : Arg → List (UInt64 × UInt64)
  | .result arg => [(arg.index, arg.fallback)]
  | _ => []

def recorded (index : UInt64) : List UInt64 := if index = noResult then [] else [index]

namespace Instruction

def arguments : Instruction → List Arg
  | .copyin input => [input.arg]
  | .copyout _ => []
  | .call _ _ args => args

def writes (instruction : Instruction) : List (UInt64 × UInt64) :=
  instruction.arguments.flatMap Arg.writes

def outputs : Instruction → List UInt64
  | .copyin _ => []
  | .copyout output => [output.index]
  | .call _ index _ => recorded index

def references (instruction : Instruction) : List UInt64 :=
  instruction.writes.map Prod.fst ++ instruction.outputs

end Instruction

namespace Call

def instructions (call : Call) : List Instruction :=
  call.copyin.map .copyin ++ .call call.syscall.id call.index call.args ::
    call.copyout.map .copyout

def arguments (call : Call) : List Arg := call.copyin.map Copyin.arg ++ call.args

def writes (call : Call) : List (UInt64 × UInt64) := call.arguments.flatMap Arg.writes

def outputs (call : Call) : List UInt64 :=
  recorded call.index ++ call.copyout.map Copyout.index

end Call

namespace Program

def instructions (program : Program) : List Instruction :=
  program.calls.flatMap Call.instructions

def arguments (program : Program) : List Arg := program.calls.flatMap Call.arguments

def writes (program : Program) : List (UInt64 × UInt64) := program.calls.flatMap Call.writes

def outputs (program : Program) : List UInt64 := program.calls.flatMap Call.outputs

def references (program : Program) : List UInt64 :=
  program.writes.map Prod.fst ++ program.outputs

end Program

namespace Call

theorem arguments_instructions (call : Call) :
    call.instructions.flatMap Instruction.arguments = call.arguments := by
  simp only [instructions, arguments, List.flatMap_append, List.flatMap_cons, List.flatMap_map,
    Instruction.arguments, ← List.map_eq_flatMap, List.flatMap_eq_nil_iff.mpr fun _ _ => rfl,
    List.append_nil]

theorem outputs_instructions (call : Call) :
    call.instructions.flatMap Instruction.outputs = call.outputs := by
  simp only [instructions, outputs, List.flatMap_append, List.flatMap_cons, List.flatMap_map,
    Instruction.outputs, ← List.map_eq_flatMap, List.flatMap_eq_nil_iff.mpr fun _ _ => rfl,
    List.nil_append]

theorem writes_instructions (call : Call) :
    call.instructions.flatMap Instruction.writes = call.writes := by
  rw [writes, ← arguments_instructions, List.flatMap_assoc]
  rfl

end Call

namespace Program

variable {program : Program}

theorem mem_instructions {instruction : Instruction} :
    instruction ∈ program.instructions ↔
      ∃ call ∈ program.calls, instruction ∈ call.instructions :=
  List.mem_flatMap

theorem writes_instructions :
    program.instructions.flatMap Instruction.writes = program.writes := by
  rw [instructions, List.flatMap_assoc, writes]
  exact congrArg program.calls.flatMap (funext Call.writes_instructions)

theorem arguments_instructions :
    program.instructions.flatMap Instruction.arguments = program.arguments := by
  rw [instructions, List.flatMap_assoc, arguments]
  exact congrArg program.calls.flatMap (funext Call.arguments_instructions)

theorem outputs_instructions :
    program.instructions.flatMap Instruction.outputs = program.outputs := by
  rw [instructions, List.flatMap_assoc, outputs]
  exact congrArg program.calls.flatMap (funext Call.outputs_instructions)

theorem mem_references {index : UInt64} :
    index ∈ program.references ↔
      index ∈ program.instructions.flatMap Instruction.references := by
  rw [references, ← writes_instructions, ← outputs_instructions, List.map_flatMap,
    List.mem_append, List.mem_flatMap, List.mem_flatMap, List.mem_flatMap]
  constructor
  · intro referred
    rcases referred with ⟨instruction, member, written⟩ | ⟨instruction, member, output⟩
    · exact ⟨instruction, member, List.mem_append_left _ written⟩
    · exact ⟨instruction, member, List.mem_append_right _ output⟩
  · intro referred
    rcases referred with ⟨instruction, member, own⟩
    rcases List.mem_append.mp own with written | output
    · exact .inl ⟨instruction, member, written⟩
    · exact .inr ⟨instruction, member, output⟩

end Program

end SyscallStream
