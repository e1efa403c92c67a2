import SyscallStream.Proofs.Acceptance

/-! Decoding undoes encoding exactly on the well-formed programs, and every decoded program is one
of them. -/

namespace SyscallStream

structure Program.WellFormed (catalog : Catalog) (limits : Limits) (program : Program) :
    Prop where
  syscalls : ∀ call ∈ program.calls,
    catalog.entry? call.syscall.id = some call.syscall ∧ ¬ IsMarker call.syscall.id
  scalars : ∀ call ∈ program.calls, ∀ arg ∈ call.args, arg.isScalar
  indices : ∀ index ∈ program.references, index < limits.maxVars
  /-- The table is what the result arguments leave, in the order of the stream. -/
  vars : program.vars = replay program.writes
  /-- Recorded call results and copyouts have a slot. -/
  slots : ∀ index ∈ program.outputs, index.toNat < program.vars.length
  size : program.encode.length ≤ limits.maxBytes.toNat

namespace Program

variable {program : Program}

-- The members of the lists are checked one by one, not the values of a word.
instance (catalog : Catalog) (limits : Limits) : Decidable (program.WellFormed catalog limits) :=
  haveI : Decidable (∀ index ∈ program.references, index < limits.maxVars) :=
    List.decidableBAll _ _
  haveI : Decidable (∀ index ∈ program.outputs, index.toNat < program.vars.length) :=
    List.decidableBAll _ _
  decidable_of_iff
    ((∀ call ∈ program.calls,
        catalog.entry? call.syscall.id = some call.syscall ∧ ¬ IsMarker call.syscall.id) ∧
      (∀ call ∈ program.calls, ∀ arg ∈ call.args, arg.isScalar) ∧
      (∀ index ∈ program.references, index < limits.maxVars) ∧
      program.vars = replay program.writes ∧
      (∀ index ∈ program.outputs, index.toNat < program.vars.length) ∧
      program.encode.length ≤ limits.maxBytes.toNat)
    ⟨fun ⟨syscalls, scalars, indices, vars, slots, size⟩ =>
      ⟨syscalls, scalars, indices, vars, slots, size⟩,
    fun ⟨syscalls, scalars, indices, vars, slots, size⟩ =>
      ⟨syscalls, scalars, indices, vars, slots, size⟩⟩

theorem Consistent.length_vars (consistent : program.Consistent) :
    program.vars.length = tableSize program.references := by
  rw [consistent.vars, length_replay, consistent.reached]

theorem Consistent.slots (consistent : program.Consistent) :
    ∀ index ∈ program.references, index.toNat < program.vars.length := by
  intro index member
  rw [consistent.length_vars]
  exact lt_tableSize member

theorem consistent_of_slots (vars : program.vars = replay program.writes)
    (slots : ∀ index ∈ program.outputs, index.toNat < program.vars.length) :
    program.Consistent := by
  refine ⟨vars, ?_⟩
  rw [vars, length_replay, ← tableSize_le_iff] at slots
  rw [references, tableSize_append, Nat.max_eq_left slots]

end Program

section RoundTrip

variable {catalog : Catalog} {limits : Limits} {bytes : Bytes} {program : Program}

theorem legal_of_wellFormed (wellFormed : program.WellFormed catalog limits)
    {instruction : Instruction} (member : instruction ∈ program.instructions) :
    instruction.Legal catalog limits.maxVars := by
  constructor
  · intro write written
    have inside : write ∈ program.writes := by
      rw [← Program.writes_instructions]
      exact List.mem_flatMap.mpr ⟨instruction, member, written⟩
    exact wellFormed.indices write.1
      (List.mem_append_left _ (List.mem_map_of_mem inside))
  · intro word index args equal
    subst equal
    rcases Program.mem_instructions.mp member with ⟨call, inside, own⟩
    obtain ⟨rfl, rfl, rfl⟩ : word = call.syscall.id ∧ index = call.index ∧ args = call.args := by
      simpa [Call.instructions] using own
    rcases wellFormed.syscalls call inside with ⟨found, plain⟩
    exact ⟨plain, ⟨call.syscall, found, rfl⟩, wellFormed.scalars call inside⟩

theorem decode_encode (wellFormed : program.WellFormed catalog limits)
    (short : ∀ data, .data data ∈ program.arguments →
      data.bytes.length < readableFlag.toNat) :
    decode catalog limits program.encode = .ok program := by
  obtain ⟨complete, built⟩ := assemble_instructions fun call member =>
    (wellFormed.syscalls call member).1
  have bound : program.encode.length < UInt64.size :=
    Nat.lt_of_le_of_lt wellFormed.size limits.maxBytes.toNat_lt
  rw [Program.encode_eq, List.length_append] at bound
  have wires : WireSeq Instruction.Wire program.instructions
      (program.instructions.flatMap Instruction.encode) := by
    refine WireSeq.of_encode fun instruction member => ?_
    have inside := length_encode_le_flatMap Instruction.encode member
    refine instruction.wire_encode (fun data argument => short data ?_) (by omega)
    rw [← Program.arguments_instructions]
    exact List.mem_flatMap.mpr ⟨instruction, member, argument⟩
  refine decode_eq_ok_iff_assemble.mpr ⟨wellFormed.size, program.instructions,
    program.instructions.flatMap Instruction.encode, [], ?_, wires,
    fun instruction member => legal_of_wellFormed wellFormed member, complete, built, ?_, ?_⟩
  · rw [Program.encode_eq, List.append_nil]
  · intro index member
    exact wellFormed.indices index (List.mem_append_right _ member)
  · exact Program.consistent_of_slots wellFormed.vars wellFormed.slots

theorem length_encode_of_wires {instructions : List Instruction} {wire : Bytes} {limit : UInt64}
    (wires : WireSeq Instruction.Wire instructions wire)
    (legal : ∀ instruction ∈ instructions, instruction.Legal catalog limit)
    (complete : (assemble catalog instructions).Complete)
    (built : program.calls = (assemble catalog instructions).calls) :
    program.encode.length = (wire ++ Word.toBytes stopWord).length := by
  have perm := instructions_perm legal complete built
  have same : (program.instructions.flatMap Instruction.encode).length = wire.length := by
    rw [wires.length_eq Instruction.encode fun _ _ own => own.length_eq]
    exact (perm.flatMap_right Instruction.encode).length_eq
  rw [Program.encode_eq, List.length_append, List.length_append, same]

theorem length_encode_le (accepted : decode catalog limits bytes = .ok program) :
    program.encode.length ≤ bytes.length := by
  obtain ⟨_, instructions, wire, rest, rfl, wires, legal, complete, built, _, _⟩ :=
    decode_eq_ok_iff_assemble.mp accepted
  rw [length_encode_of_wires wires legal complete built]
  simp only [List.length_append]
  omega

theorem short_of_decode (accepted : decode catalog limits bytes = .ok program) {data : DataArg}
    (member : .data data ∈ program.arguments) : data.bytes.length < readableFlag.toNat := by
  obtain ⟨_, instructions, wire, rest, _, wires, legal, complete, built, _, _⟩ :=
    decode_eq_ok_iff_assemble.mp accepted
  have perm := instructions_perm legal complete built
  rw [← Program.arguments_instructions] at member
  rcases List.mem_flatMap.mp member with ⟨instruction, inside, argument⟩
  rcases wires.exists_wire (perm.mem_iff.mp inside) with ⟨own, wired⟩
  exact wired.short argument

theorem wellFormed_of_decode (accepted : decode catalog limits bytes = .ok program) :
    program.WellFormed catalog limits := by
  have length := length_encode_le accepted
  obtain ⟨small, instructions, wire, rest, _, _, legal, complete, built, below, consistent⟩ :=
    decode_eq_ok_iff_assemble.mp accepted
  have perm := instructions_perm legal complete built
  have resolved : (assemble catalog instructions).Resolved catalog :=
    Assembly.resolved_addAll legal (List.forall_mem_nil _)
  have legal' : ∀ call ∈ program.calls,
      (Instruction.call call.syscall.id call.index call.args).Legal catalog limits.maxVars := by
    intro call member
    refine legal _ (perm.mem_iff.mp (Program.mem_instructions.mpr ⟨call, member, ?_⟩))
    exact List.mem_append_right _ List.mem_cons_self
  constructor
  · intro call member
    refine ⟨resolved call (built ▸ member), ((legal' call member).call _ _ _ rfl).1⟩
  · intro call member
    exact ((legal' call member).call _ _ _ rfl).2.2
  · intro index member
    rcases List.mem_append.mp member with written | output
    · rcases List.mem_map.mp written with ⟨write, inside, rfl⟩
      rw [← Program.writes_instructions] at inside
      rcases List.mem_flatMap.mp inside with ⟨instruction, own, written⟩
      exact (legal instruction (perm.mem_iff.mp own)).writes write written
    · exact below index output
  · exact consistent.vars
  · intro index member
    exact consistent.slots index (List.mem_append_right _ member)
  · omega

end RoundTrip

instance : DecidableEq (Except DecodeError Program)
  | .error first, .error second =>
    decidable_of_iff (first = second) (Iff.of_eq (Except.error.injEq first second).symm)
  | .ok first, .ok second =>
    decidable_of_iff (first = second) (Iff.of_eq (Except.ok.injEq first second).symm)
  | .error _, .ok _ => isFalse nofun
  | .ok _, .error _ => isFalse nofun

def sampleCatalog : Catalog where
  size := 1
  entry? word := if word = 0 then some ⟨0, 257, "openat", "openat"⟩ else none

def sampleProgram : Program where
  calls := [{
    syscall := ⟨0, 257, "openat", "openat"⟩
    index := 0
    args := [.result ⟨8, ⟨0⟩, 1, 0, 0, 7⟩, .const ⟨8, ⟨0⟩, 2, 0, 0, 0⟩]
    copyin := [⟨16, .data ⟨[0x2f, 0x61], true⟩⟩]
    copyout := [⟨0, 16, 8⟩] }]
  vars := [0, 7]

/-- Decoding undoes encoding on the well-formed programs and on no others. -/
theorem decode_encode_eq_ok_iff (catalog : Catalog) (limits : Limits) (program : Program)
    (short : ∀ data, .data data ∈ program.arguments →
      data.bytes.length < readableFlag.toNat) :
    decode catalog limits program.encode = .ok program ↔
      program.WellFormed catalog limits := by
  constructor
  · intro accepted
    exact wellFormed_of_decode accepted
  · intro wellFormed
    exact decode_encode wellFormed short

theorem decode_encode_sampleProgram :
    (∀ data, .data data ∈ sampleProgram.arguments → data.bytes.length < readableFlag.toNat) ∧
      decode sampleCatalog {} sampleProgram.encode = .ok sampleProgram := by
  have short : ∀ data, .data data ∈ sampleProgram.arguments →
      data.bytes.length < readableFlag.toNat := by
    intro data member
    have same : data = ⟨[0x2f, 0x61], true⟩ := by
      simpa [sampleProgram, Program.arguments, Call.arguments] using member
    rw [same]
    decide
  exact ⟨short, (decode_encode_eq_ok_iff sampleCatalog {} sampleProgram short).mpr
    (by decide +kernel)⟩

/-- The canonical stream of a decoded program decodes to the same program under the same limits. -/
theorem decode_canonical (catalog : Catalog) (limits : Limits) (bytes : Bytes) (program : Program)
    (accepted : decode catalog limits bytes = .ok program) :
    decode catalog limits program.encode = .ok program := by
  apply decode_encode
  · exact wellFormed_of_decode accepted
  · intro data member
    exact short_of_decode accepted member

/-- The sample in another order: its copyout first, with high bits in the layout of its result
argument, junk behind its data and bytes behind the end. -/
def scrambledStream : Bytes :=
  encodeWords [copyoutWord, 0, 16, 8, copyinWord, 16, 2, 0x8000000000000002] ++
    [0x2f, 0x61, 1, 2, 3, 4, 5, 6] ++
    encodeWords [0, 0, 2, 1, 0xff0008, 1, 0, 0, 7, 0, 8, 2, stopWord] ++ [9, 9, 9]

theorem decode_canonical_scrambled :
    decode sampleCatalog {} scrambledStream = .ok sampleProgram ∧
      scrambledStream ≠ sampleProgram.encode ∧
      decode sampleCatalog {} sampleProgram.encode = .ok sampleProgram := by
  have accepted : decode sampleCatalog {} scrambledStream = .ok sampleProgram := by
    decide +kernel
  exact ⟨accepted, by decide, decode_canonical sampleCatalog {} _ _ accepted⟩

end SyscallStream
