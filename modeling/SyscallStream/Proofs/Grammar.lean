import Mathlib.Data.List.Induction
import SyscallStream.Proofs.Grouping
import SyscallStream.Proofs.RoundTrip

/-! The grammar of streams. A stream spells a flat list of instructions. Decoding accepts it exactly
if the list is admissible, and gives back the calls that the list falls into. -/

namespace SyscallStream

def Spells (bytes : Bytes) (instructions : List Instruction) : Prop :=
  ∃ wire rest, bytes = wire ++ Word.toBytes stopWord ++ rest ∧
    WireSeq Instruction.Wire instructions wire

/-- The instructions behind the last call; all of them if there is no call. -/
def afterLastCall (instructions : List Instruction) : List Instruction :=
  (instructions.reverse.takeWhile (!·.isCall)).reverse

structure Admissible (catalog : Catalog) (limit : UInt64) (instructions : List Instruction) :
    Prop where
  calls : ∀ word index args, .call word index args ∈ instructions →
    ¬ IsMarker word ∧ (∃ syscall, catalog.Resolves word syscall) ∧ ∀ arg ∈ args, arg.isScalar
  indices : ∀ index ∈ instructions.flatMap Instruction.references, index < limit
  copyins : ∀ input, .copyin input ∉ afterLastCall instructions
  copyouts : ∀ output, .copyout output ∈ instructions →
    ∃ instruction ∈ instructions, instruction.isCall
  reached : tableSize ((instructions.flatMap Instruction.writes).map Prod.fst) =
    tableSize (instructions.flatMap Instruction.references)

def grouped (catalog : Catalog) (instructions : List Instruction) : Program where
  calls := (assemble catalog instructions).calls
  vars := replay (instructions.flatMap Instruction.writes)

section Tail

variable {instructions : List Instruction}

theorem afterLastCall_append_singleton (before : List Instruction) (instruction : Instruction) :
    afterLastCall (before ++ [instruction]) =
      if instruction.isCall then [] else afterLastCall before ++ [instruction] := by
  rw [afterLastCall, List.reverse_append, List.reverse_singleton, List.singleton_append,
    List.takeWhile_cons]
  cases instruction <;> simp [Instruction.isCall, afterLastCall]

theorem afterLastCall_of_no_call
    (none : ¬ ∃ instruction ∈ instructions, instruction.isCall = true) :
    afterLastCall instructions = instructions := by
  have stays : instructions.reverse.takeWhile (!·.isCall) = instructions.reverse := by
    rw [← List.append_nil instructions.reverse]
    refine List.takeWhile_append_of_pos fun instruction member => ?_
    have plain : instruction.isCall ≠ true := fun call =>
      none ⟨instruction, List.mem_reverse.mp member, call⟩
    simpa using plain
  rw [afterLastCall, stays, List.reverse_reverse]

theorem callOpen_iff : callOpen instructions = true ↔
    (∃ instruction ∈ instructions, instruction.isCall = true) ∧
      ∀ input, .copyin input ∉ afterLastCall instructions := by
  induction instructions using List.reverseRecOn with
  | nil => simp [callOpen]
  | append_singleton before instruction ih =>
    rw [callOpen_append_singleton, afterLastCall_append_singleton]
    cases instruction with
    | copyin input =>
      apply iff_of_false
      · exact Bool.false_ne_true
      · intro claimed
        exact claimed.2 input List.mem_concat_self
    | copyout output => simpa [Instruction.isCopyout, Instruction.isCall] using ih
    | call word index args => simp [Instruction.isCopyout, Instruction.isCall]

theorem callOpen_or_nil_iff : callOpen instructions = true ∨ instructions = [] ↔
    (∀ input, .copyin input ∉ afterLastCall instructions) ∧
      ∀ output, .copyout output ∈ instructions →
        ∃ instruction ∈ instructions, instruction.isCall = true := by
  by_cases call : ∃ instruction ∈ instructions, instruction.isCall = true
  · have filled : instructions ≠ [] := by
      rcases call with ⟨instruction, member, _⟩
      exact List.ne_nil_of_mem member
    simp [callOpen_iff, call, filled]
  · have shut : ¬ callOpen instructions = true := fun opened => call (callOpen_iff.mp opened).1
    rw [or_iff_right shut, afterLastCall_of_no_call call, List.eq_nil_iff_forall_not_mem]
    constructor
    · intro empty
      exact ⟨fun input => empty (.copyin input), fun output member =>
        absurd member (empty (.copyout output))⟩
    · intro given instruction member
      rcases given with ⟨noCopyin, noCopyout⟩
      cases instruction with
      | copyin input => exact noCopyin input member
      | copyout output => exact call (noCopyout output member)
      | call word index args => exact call ⟨.call word index args, member, rfl⟩

end Tail

section Grouped

variable {catalog : Catalog} {limit : UInt64} {instructions : List Instruction}

theorem mirrors_assemble
    (legal : ∀ instruction ∈ instructions, instruction.Legal catalog limit) :
    (assemble catalog instructions).Mirrors instructions :=
  Assembly.mirrors_empty.addAll legal

theorem groups_assemble
    (legal : ∀ instruction ∈ instructions, instruction.Legal catalog limit) :
    Groups catalog instructions (assemble catalog instructions).calls :=
  (mirrors_assemble legal).groups (Assembly.resolved_addAll legal (List.forall_mem_nil _))

theorem complete_assemble_iff
    (legal : ∀ instruction ∈ instructions, instruction.Legal catalog limit) :
    (assemble catalog instructions).Complete ↔
      (∀ input, .copyin input ∉ afterLastCall instructions) ∧
        ∀ output, .copyout output ∈ instructions →
          ∃ instruction ∈ instructions, instruction.isCall = true :=
  (mirrors_assemble legal).complete.trans callOpen_or_nil_iff

theorem writes_of_assemble (program : Program)
    (legal : ∀ instruction ∈ instructions, instruction.Legal catalog limit)
    (complete : (assemble catalog instructions).Complete)
    (built : program.calls = (assemble catalog instructions).calls) :
    program.writes = instructions.flatMap Instruction.writes := by
  rw [← writes_assemble complete built]
  exact Assembly.writes_addAll (a := {}) legal

theorem mem_references_of_assemble (program : Program)
    (legal : ∀ instruction ∈ instructions, instruction.Legal catalog limit)
    (complete : (assemble catalog instructions).Complete)
    (built : program.calls = (assemble catalog instructions).calls) (index : UInt64) :
    index ∈ program.references ↔ index ∈ instructions.flatMap Instruction.references := by
  have perm := instructions_perm legal complete built
  rw [Program.mem_references]
  exact (perm.flatMap_right Instruction.references).mem_iff

theorem Admissible.legal (admissible : Admissible catalog limit instructions)
    {instruction : Instruction} (member : instruction ∈ instructions) :
    instruction.Legal catalog limit := by
  constructor
  · intro write written
    apply admissible.indices
    apply List.mem_flatMap.mpr
    exact ⟨instruction, member, List.mem_append_left _ (List.mem_map_of_mem written)⟩
  · intro word index args same
    rw [same] at member
    exact admissible.calls word index args member

theorem Admissible.complete (admissible : Admissible catalog limit instructions) :
    (assemble catalog instructions).Complete :=
  (complete_assemble_iff fun _ => admissible.legal).mpr ⟨admissible.copyins, admissible.copyouts⟩

theorem Admissible.consistent (admissible : Admissible catalog limit instructions) :
    (grouped catalog instructions).Consistent := by
  have legal : ∀ instruction ∈ instructions, instruction.Legal catalog limit :=
    fun _ => admissible.legal
  have writes := writes_of_assemble (grouped catalog instructions) legal admissible.complete rfl
  have references :=
    mem_references_of_assemble (grouped catalog instructions) legal admissible.complete rfl
  constructor
  · rw [writes]
    rfl
  · rw [writes, admissible.reached]
    exact (tableSize_congr references).symm

theorem Admissible.outputs_below (admissible : Admissible catalog limit instructions) :
    ∀ index ∈ (grouped catalog instructions).outputs, index < limit := by
  intro index output
  apply admissible.indices
  rw [← mem_references_of_assemble (grouped catalog instructions) (fun _ => admissible.legal)
    admissible.complete rfl]
  exact List.mem_append_right _ output

theorem admissible_of_assemble {program : Program}
    (legal : ∀ instruction ∈ instructions, instruction.Legal catalog limit)
    (complete : (assemble catalog instructions).Complete)
    (built : program.calls = (assemble catalog instructions).calls)
    (below : ∀ index ∈ program.outputs, index < limit) (consistent : program.Consistent) :
    Admissible catalog limit instructions := by
  have writes := writes_of_assemble program legal complete built
  have references := mem_references_of_assemble program legal complete built
  have waits := (complete_assemble_iff legal).mp complete
  constructor
  · intro word index args member
    exact (legal _ member).call word index args rfl
  · intro index member
    rcases List.mem_append.mp ((references index).mpr member) with written | output
    · rw [writes] at written
      rcases List.mem_map.mp written with ⟨write, inside, rfl⟩
      rcases List.mem_flatMap.mp inside with ⟨instruction, own, written⟩
      exact (legal instruction own).writes write written
    · exact below index output
  · exact waits.1
  · exact waits.2
  · rw [← writes, consistent.reached]
    exact tableSize_congr references

end Grouped

section Language

variable {catalog : Catalog} {limits : Limits} {bytes : Bytes} {program : Program}
  {instructions : List Instruction}

theorem decode_grouped (small : bytes.length ≤ limits.maxBytes.toNat)
    (spells : Spells bytes instructions)
    (admissible : Admissible catalog limits.maxVars instructions) :
    decode catalog limits bytes = .ok (grouped catalog instructions) := by
  rcases spells with ⟨wire, rest, split, wires⟩
  apply decode_eq_ok_iff_assemble.mpr
  exact ⟨small, instructions, wire, rest, split, wires, fun _ => admissible.legal,
    admissible.complete, rfl, admissible.outputs_below, admissible.consistent⟩

theorem spells_of_decode (accepted : decode catalog limits bytes = .ok program) :
    bytes.length ≤ limits.maxBytes.toNat ∧ ∃ instructions, Spells bytes instructions ∧
      Admissible catalog limits.maxVars instructions := by
  rcases decode_eq_ok_iff_assemble.mp accepted with
    ⟨small, instructions, wire, rest, split, wires, legal, complete, built, below, consistent⟩
  exact ⟨small, instructions, ⟨wire, rest, split, wires⟩,
    admissible_of_assemble legal complete built below consistent⟩

theorem eq_grouped_iff (admissible : Admissible catalog limits.maxVars instructions) :
    program = grouped catalog instructions ↔ Groups catalog instructions program.calls ∧
      program.vars = replay (instructions.flatMap Instruction.writes) := by
  have groups := groups_assemble fun _ => admissible.legal
  constructor
  · intro same
    rw [same]
    exact ⟨groups, rfl⟩
  · intro same
    calc
      program = ⟨program.calls, program.vars⟩ := rfl
      _ = grouped catalog instructions := by
        rw [same.1.unique groups, same.2]
        rfl

/-- Decoding accepts exactly the streams that spell admissible instructions, and gives back what
these group to. -/
theorem decode_accepts_grammar (catalog : Catalog) (limits : Limits) (bytes : Bytes) :
    ((∃ program, decode catalog limits bytes = .ok program) ↔
      bytes.length ≤ limits.maxBytes.toNat ∧ ∃ instructions, Spells bytes instructions ∧
        Admissible catalog limits.maxVars instructions) ∧
    ∀ instructions, bytes.length ≤ limits.maxBytes.toNat → Spells bytes instructions →
      Admissible catalog limits.maxVars instructions →
      ∀ program, decode catalog limits bytes = .ok program ↔
        Groups catalog instructions program.calls ∧
          program.vars = replay (instructions.flatMap Instruction.writes) := by
  constructor
  · constructor
    · intro accepted
      rcases accepted with ⟨program, accepted⟩
      exact spells_of_decode accepted
    · intro spelled
      rcases spelled with ⟨small, instructions, spells, admissible⟩
      exact ⟨grouped catalog instructions, decode_grouped small spells admissible⟩
  · intro instructions small spells admissible program
    rw [decode_grouped small spells admissible, Except.ok.injEq, eq_comm]
    exact eq_grouped_iff admissible

end Language

def scrambledInstructions : List Instruction :=
  [.copyout ⟨0, 16, 8⟩, .copyin ⟨16, .data ⟨[0x2f, 0x61], true⟩⟩,
    .call 0 0 [.result ⟨8, ⟨0⟩, 1, 0, 0, 7⟩, .const ⟨8, ⟨0⟩, 2, 0, 0, 0⟩]]

theorem spells_scrambled : Spells scrambledStream scrambledInstructions := by
  refine ⟨_, [9, 9, 9], ?_, .cons (.copyout _) (.cons (.copyin _ (.data _ [1, 2, 3, 4, 5, 6]
    (by decide) (by decide))) (.cons (.call 0 0 (by decide)
      (.cons (.result _ 0xff0008 (by decide)) (.cons (.const _) .nil))) .nil))⟩
  decide +kernel

theorem admissible_scrambled : Admissible sampleCatalog 65536 scrambledInstructions := by
  constructor
  · intro word index args member
    simp only [scrambledInstructions, List.mem_cons, reduceCtorEq, Instruction.call.injEq,
      List.not_mem_nil, or_false, false_or] at member
    rcases member with ⟨rfl, rfl, rfl⟩
    exact ⟨by decide, ⟨_, rfl, rfl⟩, by decide⟩
  · intro index member
    have indices : scrambledInstructions.flatMap Instruction.references = [0, 1, 0] := by decide
    rw [indices] at member
    simp only [List.mem_cons, List.not_mem_nil, or_false] at member
    rcases member with rfl | rfl | rfl <;> decide
  · intro input member
    have none : afterLastCall scrambledInstructions = [] := by decide
    rw [none] at member
    cases member
  · intro output _
    exact ⟨_, List.mem_cons_of_mem _ (List.mem_cons_of_mem _ List.mem_cons_self), rfl⟩
  · decide

theorem decode_accepts_grammar_scrambled :
    Spells scrambledStream scrambledInstructions ∧
      Admissible sampleCatalog 65536 scrambledInstructions ∧
      Groups sampleCatalog scrambledInstructions sampleProgram.calls := by
  have accepted : decode sampleCatalog {} scrambledStream = .ok sampleProgram := by
    decide +kernel
  have grouping := (decode_accepts_grammar sampleCatalog {} scrambledStream).2
    scrambledInstructions (by decide +kernel) spells_scrambled admissible_scrambled sampleProgram
  exact ⟨spells_scrambled, admissible_scrambled, (grouping.mp accepted).1⟩

end SyscallStream
