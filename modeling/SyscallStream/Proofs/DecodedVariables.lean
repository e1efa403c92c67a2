import SyscallStream.Proofs.RoundTrip

/-! The variable table of a decoded program: what its length is, which of its slots are referred to
and what they hold. -/

namespace SyscallStream

namespace Program

variable {program : Program}

theorem writes_eq : program.writes = program.arguments.flatMap Arg.writes := by
  rw [arguments, List.flatMap_assoc]
  rfl

theorem exists_result_of_mem_writes {write : UInt64 × UInt64} (member : write ∈ program.writes) :
    ∃ arg, .result arg ∈ program.arguments ∧ write.1 = arg.index := by
  rw [writes_eq] at member
  rcases List.mem_flatMap.mp member with ⟨arg, argument, written⟩
  cases arg with
  | const arg => cases written
  | result arg =>
    rw [List.mem_singleton.mp written]
    exact ⟨arg, argument, rfl⟩
  | data arg => cases written
  | checksum arg => cases written

theorem Consistent.highest (consistent : program.Consistent) (some : program.references ≠ []) :
    ∃ arg, .result arg ∈ program.arguments ∧ ∀ index ∈ program.references, index ≤ arg.index := by
  rcases exists_highest consistent.reached some with ⟨highest, member, above⟩
  rcases List.mem_map.mp member with ⟨write, own, rfl⟩
  rcases exists_result_of_mem_writes own with ⟨arg, argument, same⟩
  rw [same] at above
  exact ⟨arg, argument, above⟩

theorem Consistent.getElem?_vars (consistent : program.Consistent) (slot : Nat) :
    program.vars[slot]? =
      if slot < program.vars.length then some (lastWrite program.writes slot) else none := by
  rw [consistent.vars, length_replay]
  exact getElem?_replay program.writes slot

end Program

/-- The table of a decoded program is as long as its references ask for and within the limit, a
result argument has the highest of them, and a slot holds the fallback of the last result argument
for it or zero. -/
theorem variables_of_decode (catalog : Catalog) (limits : Limits) (bytes : Bytes)
    (program : Program) (accepted : decode catalog limits bytes = .ok program) :
    program.vars.length = tableSize program.references ∧
      (∀ index ∈ program.references, index.toNat < program.vars.length) ∧
      program.vars.length ≤ limits.maxVars.toNat ∧
      (program.references ≠ [] → ∃ arg, .result arg ∈ program.arguments ∧
        ∀ index ∈ program.references, index ≤ arg.index) ∧
      ∀ slot, program.vars[slot]? =
        if slot < program.vars.length then some (lastWrite program.writes slot) else none := by
  have wellFormed := wellFormed_of_decode accepted
  have consistent := Program.consistent_of_slots wellFormed.vars wellFormed.slots
  have length := consistent.length_vars
  refine ⟨length, consistent.slots, ?_, consistent.highest, consistent.getElem?_vars⟩
  rw [length, tableSize_le_iff]
  intro index member
  exact UInt64.lt_iff_toNat_lt.mp (wellFormed.indices index member)

theorem variables_of_decode_scrambled :
    decode sampleCatalog {} scrambledStream = .ok sampleProgram ∧
      sampleProgram.vars.length = tableSize sampleProgram.references ∧
      sampleProgram.vars[1]? = some (lastWrite sampleProgram.writes 1) := by
  have accepted : decode sampleCatalog {} scrambledStream = .ok sampleProgram := by
    decide +kernel
  have table := variables_of_decode sampleCatalog {} _ _ accepted
  exact ⟨accepted, table.1, table.2.2.2.2 1⟩

end SyscallStream
