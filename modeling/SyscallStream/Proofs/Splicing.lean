import SyscallStream.Proofs.DecodedVariables

/-! One stream behind another. Cut off before its stop word, an accepted stream can be continued by
an accepted one, which must not start with a copyout. The calls stand one behind the other, and the
second stream has the last word on the variables it writes to. -/

namespace SyscallStream

/-- What was read of a stream before its stop word; the whole stream if it is refused. -/
def beforeStop (catalog : Catalog) (limits : Limits) (bytes : Bytes) : Bytes :=
  match Decoder.instructions catalog (.initial limits bytes) with
  | .ok _ s => bytes.take (s.cursor.offset - wordSize)
  | .error _ _ => bytes

def Program.Sets (program : Program) (slot : Nat) : Prop :=
  ∃ arg, .result arg ∈ program.arguments ∧ arg.index.toNat = slot

section Writes

theorem lastWrite_append (front back : List (UInt64 × UInt64)) (slot : Nat) :
    lastWrite (front ++ back) slot =
      if ∃ write ∈ back, write.1.toNat = slot then lastWrite back slot
      else lastWrite front slot := by
  simp only [lastWrite, List.filter_append, List.getLast?_append]
  cases last : (back.filter fun write => write.1.toNat = slot).getLast? with
  | none =>
    rw [List.getLast?_eq_none_iff, List.filter_eq_nil_iff] at last
    have unwritten : ¬ ∃ write ∈ back, write.1.toNat = slot := by
      intro written
      rcases written with ⟨write, member, here⟩
      exact last write member (by simpa using here)
    rw [if_neg unwritten, Option.none_or]
  | some write =>
    rcases List.mem_filter.mp (List.mem_of_getLast? last) with ⟨member, here⟩
    rw [if_pos ⟨write, member, by simpa using here⟩, Option.some_or]

theorem Program.sets_iff {program : Program} {slot : Nat} :
    program.Sets slot ↔ ∃ write ∈ program.writes, write.1.toNat = slot := by
  constructor
  · intro sets
    rcases sets with ⟨arg, argument, here⟩
    refine ⟨(arg.index, arg.fallback), ?_, here⟩
    rw [writes_eq]
    exact List.mem_flatMap.mpr ⟨.result arg, argument, List.mem_singleton_self _⟩
  · intro written
    rcases written with ⟨write, member, here⟩
    rcases exists_result_of_mem_writes member with ⟨arg, argument, same⟩
    exact ⟨arg, argument, same ▸ here⟩

instance (program : Program) (slot : Nat) : Decidable (program.Sets slot) :=
  decidable_of_iff _ Program.sets_iff.symm

end Writes

namespace Assembly

variable {catalog : Catalog} {a : Assembly} {calls : List Call} {instruction : Instruction}
  {instructions : List Instruction}

def behind (calls : List Call) (a : Assembly) : Assembly := { a with closed := calls ++ a.closed }

theorem calls_behind (calls : List Call) (a : Assembly) :
    (a.behind calls).calls = calls ++ a.calls :=
  List.append_assoc _ _ _

/-- No instruction looks at the finished calls. -/
theorem add_behind (instruction : Instruction) :
    (a.behind calls).add catalog instruction = (a.add catalog instruction).behind calls := by
  cases instruction with
  | copyin input => simp only [add, close, calls_behind]; rfl
  | copyout output =>
    cases current : a.current? <;> simp only [add, behind, current]
  | call word index args => simp only [add, calls_behind]; rfl

theorem addAll_behind (instructions : List Instruction) :
    (a.behind calls).addAll catalog instructions =
      (a.addAll catalog instructions).behind calls := by
  induction instructions generalizing a with
  | nil => rfl
  | cons instruction later ih =>
    calc
      (a.behind calls).addAll catalog (instruction :: later) =
          ((a.add catalog instruction).behind calls).addAll catalog later := by
        rw [← add_behind]
        rfl
      _ = (a.addAll catalog (instruction :: later)).behind calls := ih

/-- Where nothing waits for a call, every instruction but a copyout starts afresh. -/
theorem add_of_complete (complete : a.Complete)
    (other : ∀ output, instruction ≠ .copyout output) :
    a.add catalog instruction = (add catalog {} instruction).behind a.calls := by
  rcases complete with ⟨noCopyin, noCopyout⟩
  cases instruction with
  | copyin input => simp [add, behind, close, Assembly.calls, noCopyin, noCopyout]
  | copyout output => exact absurd rfl (other output)
  | call word index args => simp [add, behind, Assembly.calls, noCopyin, noCopyout]

theorem addAll_of_complete (catalog : Catalog) (complete : a.Complete)
    (start : ∀ output, instructions.head? ≠ some (.copyout output)) :
    (a.addAll catalog instructions).calls = a.calls ++ (assemble catalog instructions).calls ∧
      ((assemble catalog instructions).Complete → (a.addAll catalog instructions).Complete) := by
  cases instructions with
  | nil => exact ⟨(List.append_nil _).symm, fun _ => complete⟩
  | cons instruction later =>
    have fresh : a.addAll catalog (instruction :: later) =
        (assemble catalog (instruction :: later)).behind a.calls := by
      change (a.add catalog instruction).addAll catalog later = _
      rw [add_of_complete complete fun output same => start output (congrArg some same),
        addAll_behind]
      rfl
    rw [fresh, calls_behind]
    exact ⟨rfl, fun waits => waits⟩

end Assembly

theorem WireSeq.append {α : Type} {wire : α → Bytes → Prop} {front back : List α}
    {bytes more : Bytes} (first : WireSeq wire front bytes) (second : WireSeq wire back more) :
    WireSeq wire (front ++ back) (bytes ++ more) := by
  induction first with
  | nil => exact second
  | cons head _ ih =>
    rw [List.cons_append, List.append_assoc]
    exact .cons head ih

theorem head_ne_copyout {instructions : List Instruction} {wire rest : Bytes}
    (wires : WireSeq Instruction.Wire instructions wire)
    (start : Word.ofBytes ((wire ++ rest).take wordSize) ≠ copyoutWord) (output : Copyout) :
    instructions.head? ≠ some (.copyout output) := by
  intro first
  cases wires with
  | nil => cases first
  | cons head tail =>
    obtain rfl := Option.some.inj first
    cases head with
    | copyout =>
      apply start
      rw [encodeWords, List.flatMap_cons, List.append_assoc, List.append_assoc,
        List.take_left' (Word.length_toBytes copyoutWord), Word.ofBytes_toBytes]

section Splice

variable {catalog : Catalog} {limits : Limits} {bytes wire rest : Bytes}
  {instructions : List Instruction} {first second program : Program}

/-- The run stops behind the stop word, so the part before it is the wire form of what was read. -/
theorem beforeStop_eq (split : bytes = wire ++ Word.toBytes stopWord ++ rest)
    (wires : WireSeq Instruction.Wire instructions wire)
    (allows : (State.initial limits bytes).AllowsAll catalog instructions) :
    beforeStop catalog limits bytes = wire := by
  have passes : (State.initial limits bytes).cursor.Passes (wire ++ Word.toBytes stopWord)
      ((Cursor.ofBytes bytes).advance (wire ++ Word.toBytes stopWord).length) := by
    constructor
    · rw [Cursor.rest_advance]
      change bytes = _ ++ bytes.drop _
      rw [split, List.drop_left]
    · exact Cursor.offset_advance _ _
  rw [beforeStop, Decoder.instructions_of_wire wires passes allows]
  change bytes.take (0 + (wire ++ Word.toBytes stopWord).length - wordSize) = wire
  rw [List.length_append, Word.length_toBytes, Nat.zero_add, Nat.add_sub_cancel, split,
    List.append_assoc, List.take_left]

theorem Program.Consistent.append (consistent : first.Consistent)
    (consistent' : second.Consistent) :
    Program.Consistent
      ⟨first.calls ++ second.calls, replay (first.writes ++ second.writes)⟩ := by
  constructor
  · exact congrArg replay List.flatMap_append.symm
  · have reached := consistent.reached
    have reached' := consistent'.reached
    simp only [Program.references, Program.writes, Program.outputs, tableSize_append,
      List.flatMap_append, List.map_append] at reached reached' ⊢
    omega

theorem Program.Consistent.vars_append (consistent : first.Consistent)
    (consistent' : second.Consistent) (whole : program.Consistent)
    (calls : program.calls = first.calls ++ second.calls) :
    program.vars.length = max first.vars.length second.vars.length ∧
      ∀ slot, program.vars[slot]? =
        if second.Sets slot then second.vars[slot]?
        else if slot < first.vars.length then first.vars[slot]?
        else if slot < program.vars.length then some 0 else none := by
  have writes : program.writes = first.writes ++ second.writes := by
    rw [Program.writes, calls, List.flatMap_append]
    rfl
  have length : program.vars.length = max first.vars.length second.vars.length := by
    rw [whole.vars, consistent.vars, consistent'.vars, length_replay, length_replay,
      length_replay, writes, List.map_append, tableSize_append]
  refine ⟨length, ?_⟩
  intro slot
  rw [whole.getElem?_vars, consistent.getElem?_vars, consistent'.getElem?_vars, writes,
    lastWrite_append]
  by_cases sets : second.Sets slot
  · have inside : slot < second.vars.length := by
      rcases Program.sets_iff.mp sets with ⟨write, member, rfl⟩
      apply consistent'.slots
      exact List.mem_append_left _ (List.mem_map_of_mem member)
    rw [if_pos (Program.sets_iff.mp sets), if_pos sets, if_pos inside, if_pos (by omega)]
  · rw [if_neg (mt Program.sets_iff.mpr sets), if_neg sets]
    by_cases inside : slot < first.vars.length
    · rw [if_pos inside, if_pos inside, if_pos (by omega)]
    · have beyond : tableSize (first.writes.map Prod.fst) ≤ slot := by
        rw [← length_replay, ← consistent.vars]
        omega
      rw [if_neg inside, lastWrite_of_tableSize_le beyond]

end Splice

/-- An accepted stream, cut off before its stop word and continued by another accepted stream, is
accepted as the calls of the first and then those of the second. Only a copyout at the start of the
second one would join a call of the first. -/
theorem decode_splice (catalog : Catalog) (limits : Limits) (front back : Bytes)
    (first second : Program) (accepted : decode catalog limits front = .ok first)
    (accepted' : decode catalog limits back = .ok second)
    (start : Word.ofBytes (back.take wordSize) ≠ copyoutWord)
    (fits : (beforeStop catalog limits front ++ back).length ≤ limits.maxBytes.toNat) :
    ∃ program, decode catalog limits (beforeStop catalog limits front ++ back) = .ok program ∧
      program.calls = first.calls ++ second.calls ∧
      program.vars.length = max first.vars.length second.vars.length ∧
      ∀ slot, program.vars[slot]? =
        if second.Sets slot then second.vars[slot]?
        else if slot < first.vars.length then first.vars[slot]?
        else if slot < program.vars.length then some 0 else none := by
  obtain ⟨_, instructions, wire, rest, split, wires, legal, complete, built, below, consistent⟩ :=
    decode_eq_ok_iff_assemble.mp accepted
  obtain ⟨_, more, wire', rest', rfl, wires', legal', complete', built', below', consistent'⟩ :=
    decode_eq_ok_iff_assemble.mp accepted'
  have cut : beforeStop catalog limits front = wire := by
    apply beforeStop_eq split wires
    rw [allowsAll_initial_iff, ← built, ← Program.outputs_below_iff]
    exact ⟨legal, below⟩
  rw [List.append_assoc] at start
  obtain ⟨calls, waits⟩ :=
    Assembly.addAll_of_complete catalog complete (head_ne_copyout wires' start)
  have joined : assemble catalog (instructions ++ more) =
      (assemble catalog instructions).addAll catalog more := Assembly.addAll_append _ _
  have whole := consistent.append consistent'
  refine ⟨_, ?_, rfl, consistent.vars_append consistent' whole rfl⟩
  rw [cut] at fits ⊢
  apply decode_eq_ok_iff_assemble.mpr
  refine ⟨fits, instructions ++ more, wire ++ wire', rest', ?_, wires.append wires',
    List.forall_mem_append.mpr ⟨legal, legal'⟩, ?_, ?_, ?_, whole⟩
  · simp only [List.append_assoc]
  · rw [joined]
    exact waits complete'
  · rw [joined, calls, built, built']
  · rw [Program.outputs, List.flatMap_append, List.forall_mem_append]
    exact ⟨below, below'⟩

-- A copyout at the start of the second stream joins the last call of the first.
example : (decode sampleCatalog {}
    (beforeStop sampleCatalog {} scrambledStream ++ scrambledStream)).toOption.map
      (fun program => program.calls.map fun call => call.copyout.length) = some [2, 0] := by
  decide +kernel

def resetProgram : Program where
  calls := [{
    syscall := ⟨0, 257, "openat", "openat"⟩
    index := noResult
    args := [.result ⟨8, ⟨0⟩, 0, 0, 0, 9⟩]
    copyin := []
    copyout := [] }]
  vars := [9]

theorem decode_splice_scrambled :
    decode sampleCatalog {} scrambledStream = .ok sampleProgram ∧
      decode sampleCatalog {} resetProgram.encode = .ok resetProgram ∧
      ∃ program, decode sampleCatalog {}
          (beforeStop sampleCatalog {} scrambledStream ++ resetProgram.encode) = .ok program ∧
        program.calls = sampleProgram.calls ++ resetProgram.calls ∧
        program.vars.length = 2 ∧ program.vars[0]? = some 9 ∧ program.vars[1]? = some 7 := by
  have accepted : decode sampleCatalog {} scrambledStream = .ok sampleProgram := by
    decide +kernel
  have accepted' : decode sampleCatalog {} resetProgram.encode = .ok resetProgram := by
    decide +kernel
  rcases decode_splice sampleCatalog {} _ _ _ _ accepted accepted' (by decide +kernel)
    (by decide +kernel) with ⟨program, decoded, calls, length, slots⟩
  refine ⟨accepted, accepted', program, decoded, calls, length, ?_, ?_⟩
  · rw [slots, if_pos (by decide)]
    rfl
  · rw [slots, if_neg (by decide), if_pos (by decide)]
    rfl

end SyscallStream
