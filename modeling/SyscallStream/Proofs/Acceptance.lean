import SyscallStream.Proofs.Assembly

/-! When a list of instructions makes a program: every instruction is legal, nothing waits for a
call at the end, and the result arguments reach every variable that the calls set. -/

namespace SyscallStream

theorem Variables.Tracks.congr {vars : Variables} {writes : List (UInt64 × UInt64)}
    {front back : List UInt64} (same : ∀ index, index ∈ front ↔ index ∈ back)
    (tracks : vars.Tracks writes front) : vars.Tracks writes back :=
  ⟨tracks.slots, by rw [tracks.required, tableSize_congr same]⟩

namespace State

variable {catalog : Catalog} {s : State} {instruction : Instruction}
  {instructions : List Instruction}

theorem duties_eq (s : State) : s.duties = s.assembly.current?.toList.flatMap Call.outputs := by
  cases open? : s.pending.syscall? with
  | none => simp [duties, assembly, open?]
  | some syscall =>
    simp only [duties, assembly, open?, Option.toList_some, List.flatMap_singleton]
    rfl

theorem vars_committed (s : State) : s.committed.vars = s.vars.mentionAll s.duties := by
  cases open? : s.pending.syscall? with
  | none => simp [committed, duties, open?, Variables.mentionAll]
  | some syscall => simp [committed, duties, open?]

/-- The invariant of a run. The table replays all writes read so far, and the required size covers
them and what the finished calls set. -/
structure Sound (s : State) : Prop where
  tidy : s.Tidy
  tracks : s.vars.Tracks s.assembly.writes
    (s.assembly.writes.map Prod.fst ++ s.assembly.closed.flatMap Call.outputs)

theorem sound_initial (limits : Limits) (bytes : Bytes) : (State.initial limits bytes).Sound :=
  ⟨fun _ => rfl, Variables.Tracks.empty limits.maxVars⟩

theorem Sound.committed (sound : s.Sound) (settles : s.Settles) : s.committed.Sound := by
  refine ⟨fun _ => args_committed sound.tidy, ?_⟩
  have mentioned := sound.tracks.mentionAll settles
  have indices : s.assembly.writes.map Prod.fst ++ s.assembly.closed.flatMap Call.outputs ++
      s.duties = s.assembly.writes.map Prod.fst ++ s.assembly.calls.flatMap Call.outputs := by
    rw [duties_eq, Assembly.calls, List.flatMap_append, List.append_assoc]
  rw [indices] at mentioned
  rw [vars_committed, assembly_committed, Assembly.writes_close]
  exact mentioned

theorem Sound.write (sound : s.Sound) (settles : s.Settles) {writes : List (UInt64 × UInt64)}
    (below : ∀ write ∈ writes, write.1 < s.vars.limit) :
    (s.committed.vars.putAll writes).Tracks (s.assembly.writes ++ writes)
      ((s.assembly.writes ++ writes).map Prod.fst ++ s.assembly.calls.flatMap Call.outputs) := by
  have closed := (sound.committed settles).tracks
  rw [assembly_committed, Assembly.writes_close] at closed
  rw [← limit_committed] at below
  refine (closed.putAll below).congr fun index => ?_
  change _ ∈ _ ++ s.assembly.calls.flatMap Call.outputs ++ _ ↔ _
  simp only [List.map_append, List.mem_append]
  grind

theorem Sound.take (sound : s.Sound) (allows : s.Allows catalog instruction) :
    (s.take catalog instruction).Sound := by
  refine ⟨tidy_take allows.legal sound.tidy, ?_⟩
  rw [assembly_take allows.legal sound.tidy, Assembly.writes_add allows.legal]
  cases instruction with
  | copyin input =>
    have same : (Instruction.copyin input).writes = input.arg.writes := List.append_nil _
    rcases allows_copyin.mp allows with ⟨settles, below⟩
    rw [same]
    exact sound.write settles below
  | copyout output =>
    have none : (Instruction.copyout output).writes = [] := rfl
    rw [Assembly.closed_add_copyout, none, List.append_nil]
    exact sound.tracks
  | call word index args =>
    exact sound.write (allows_call.mp allows).1 allows.legal.writes

theorem Sound.takeAll (sound : s.Sound) (allows : s.AllowsAll catalog instructions) :
    (s.takeAll catalog instructions).committed.Sound := by
  induction instructions generalizing s with
  | nil => exact sound.committed allows
  | cons instruction later ih => exact ih (sound.take allows.1) allows.2

theorem settles_iff : s.Settles ↔ ∀ call ∈ s.assembly.current?.toList,
    ∀ index ∈ call.outputs, index < s.vars.limit := by
  rw [Settles, duties_eq]
  simp only [List.mem_flatMap]
  constructor
  · intro below call member index output
    exact below index ⟨call, member, output⟩
  · intro below index given
    rcases given with ⟨call, member, output⟩
    exact below call member index output

/-- A call that an instruction finishes was settled, so all finished calls stay below the limit. -/
theorem closed_below_take (tidy : s.Tidy)
    (finished : ∀ call ∈ s.assembly.closed, ∀ index ∈ call.outputs, index < s.vars.limit)
    (legal : instruction.Legal catalog s.vars.limit)
    (settles : (∀ output, instruction ≠ .copyout output) → s.Settles) :
    ∀ call ∈ (s.take catalog instruction).assembly.closed,
      ∀ index ∈ call.outputs, index < (s.take catalog instruction).vars.limit := by
  rw [limit_take, assembly_take legal tidy]
  intro call member
  by_cases other : ∀ output, instruction ≠ .copyout output
  · rw [Assembly.closed_add other] at member
    rcases List.mem_append.mp member with closed | current
    · exact finished call closed
    · exact settles_iff.mp (settles other) call current
  · cases instruction with
    | copyout output =>
      rw [Assembly.closed_add_copyout] at member
      exact finished call member
    | _ => exact absurd nofun other

/-- The checks of a run, all at once: every instruction is legal, and every call that the run
finishes sets variables below the limit. -/
theorem allowsAll_iff (tidy : s.Tidy)
    (finished : ∀ call ∈ s.assembly.closed, ∀ index ∈ call.outputs, index < s.vars.limit) :
    s.AllowsAll catalog instructions ↔
      (∀ instruction ∈ instructions, instruction.Legal catalog s.vars.limit) ∧
        ∀ call ∈ (s.assembly.addAll catalog instructions).calls,
          ∀ index ∈ call.outputs, index < s.vars.limit := by
  induction instructions generalizing s with
  | nil =>
    rw [AllowsAll, settles_iff]
    constructor
    · intro below
      refine ⟨List.forall_mem_nil _, fun call member => ?_⟩
      rcases List.mem_append.mp member with closed | current
      · exact finished call closed
      · exact below call current
    · intro given call current
      rcases given with ⟨_, below⟩
      exact below call (List.mem_append_right _ current)
  | cons instruction later ih =>
    rw [AllowsAll, List.forall_mem_cons]
    constructor
    · intro given
      rcases given with ⟨allows, rest⟩
      have settled := closed_below_take tidy finished allows.legal allows.settles
      rcases (ih (tidy_take allows.legal tidy) settled).mp rest with ⟨legal, below⟩
      rw [limit_take] at legal below
      rw [assembly_take allows.legal tidy] at below
      exact ⟨⟨allows.legal, legal⟩, below⟩
    · intro given
      rcases given with ⟨⟨first, legal⟩, below⟩
      have settles : (∀ output, instruction ≠ .copyout output) → s.Settles := by
        intro other
        rw [settles_iff]
        intro call current
        apply below
        apply Assembly.closed_subset_addAll (s.assembly.add catalog instruction) later
        rw [Assembly.closed_add other]
        exact List.mem_append_right _ current
      have settled := closed_below_take tidy finished first settles
      refine ⟨⟨first, settles⟩, (ih (tidy_take first tidy) settled).mpr ?_⟩
      rw [limit_take, assembly_take first tidy]
      exact ⟨legal, below⟩

theorem finish_eq_ok {program : Program} : s.finish = .ok program ↔
    s.pending.copyin.toList = [] ∧ s.pending.copyout.toList = [] ∧
      program.calls = s.calls.toList ∧ s.vars.close = .ok program.vars := by
  have waits : (s.pending.copyin.isEmpty && s.pending.copyout.isEmpty) = true ↔
      s.pending.copyin.toList = [] ∧ s.pending.copyout.toList = [] := by
    simp
  unfold finish
  by_cases none : (s.pending.copyin.isEmpty && s.pending.copyout.isEmpty) = true
  · rcases waits.mp none with ⟨noCopyin, noCopyout⟩
    rw [if_pos none]
    cases closed : s.vars.close with
    | error error => simp
    | ok vars =>
      simp only [noCopyin, noCopyout, true_and, Except.ok.injEq]
      constructor
      · intro equal
        subst equal
        exact ⟨rfl, rfl⟩
      · intro given
        rcases given with ⟨calls, rfl⟩
        rw [← calls]
  · rw [if_neg none]
    constructor
    · intro refused
      cases refused
    · intro given
      rcases given with ⟨noCopyin, noCopyout, _⟩
      exact absurd (waits.mpr ⟨noCopyin, noCopyout⟩) none

end State

/-- A program makes sense on its own: the result arguments reach every variable that it refers to,
and its table is what they leave. -/
structure Program.Consistent (program : Program) : Prop where
  vars : program.vars = replay program.writes
  reached : tableSize (program.writes.map Prod.fst) = tableSize program.references

theorem Program.outputs_below_iff {program : Program} {limit : UInt64} :
    (∀ index ∈ program.outputs, index < limit) ↔
      ∀ call ∈ program.calls, ∀ index ∈ call.outputs, index < limit := by
  simp only [Program.outputs, List.mem_flatMap]
  constructor
  · intro below call member index output
    exact below index ⟨call, member, output⟩
  · intro below index given
    rcases given with ⟨call, member, output⟩
    exact below call member index output

section Verdict

variable {catalog : Catalog} {limits : Limits} {bytes : Bytes}
  {instructions : List Instruction} {program : Program}

theorem allowsAll_initial_iff :
    (State.initial limits bytes).AllowsAll catalog instructions ↔
      (∀ instruction ∈ instructions, instruction.Legal catalog limits.maxVars) ∧
        ∀ call ∈ (assemble catalog instructions).calls,
          ∀ index ∈ call.outputs, index < limits.maxVars :=
  State.allowsAll_iff (State.sound_initial limits bytes).tidy (List.forall_mem_nil _)

/-- A run puts its instructions together to what they make up without the state. -/
theorem assembly_run
    (legal : ∀ instruction ∈ instructions, instruction.Legal catalog limits.maxVars) :
    ((State.initial limits bytes).takeAll catalog instructions).assembly =
      assemble catalog instructions :=
  State.assembly_takeAll legal (State.sound_initial limits bytes).tidy

theorem finish_run_eq_ok_iff
    (allows : (State.initial limits bytes).AllowsAll catalog instructions) :
    ((State.initial limits bytes).takeAll catalog instructions).committed.finish =
        .ok program ↔
      (assemble catalog instructions).Complete ∧
        program.calls = (assemble catalog instructions).calls ∧ program.Consistent := by
  have same := @assembly_run catalog limits bytes _ (allowsAll_initial_iff.mp allows).1
  have tracks := ((State.sound_initial limits bytes).takeAll allows).tracks
  rw [State.assembly_committed, Assembly.writes_close, same] at tracks
  have closed : ((assemble catalog instructions).close).closed =
      (assemble catalog instructions).calls := rfl
  obtain ⟨calls, copyin, copyout⟩ :=
    State.committed_eq_assembly ((State.initial limits bytes).takeAll catalog instructions)
  rw [State.finish_eq_ok, tracks.close_eq_ok, calls, copyin, copyout, same, closed]
  constructor
  · intro given
    rcases given with ⟨noCopyin, noCopyout, built, reached, vars⟩
    have complete : (assemble catalog instructions).Complete := ⟨noCopyin, noCopyout⟩
    rw [writes_assemble complete built] at reached vars
    rw [← built] at reached
    exact ⟨complete, built, vars, reached⟩
  · intro given
    rcases given with ⟨complete, built, consistent⟩
    rw [writes_assemble complete built, ← built]
    exact ⟨complete.1, complete.2, rfl, consistent.reached, consistent.vars⟩

/-- Decoding without the state: a stream is accepted as a program exactly if it is the wire form of
legal instructions that make up the program, followed by the stop word. -/
theorem decode_eq_ok_iff_assemble :
    decode catalog limits bytes = .ok program ↔ bytes.length ≤ limits.maxBytes.toNat ∧
      ∃ instructions wire rest, bytes = wire ++ Word.toBytes stopWord ++ rest ∧
        WireSeq Instruction.Wire instructions wire ∧
        (∀ instruction ∈ instructions, instruction.Legal catalog limits.maxVars) ∧
        (assemble catalog instructions).Complete ∧
        program.calls = (assemble catalog instructions).calls ∧
        (∀ index ∈ program.outputs, index < limits.maxVars) ∧ program.Consistent := by
  rw [decode_eq_ok_iff_run]
  constructor
  · intro given
    rcases given with ⟨small, instructions, wire, rest, split, wires, allows, finished⟩
    rcases allowsAll_initial_iff.mp allows with ⟨legal, below⟩
    rcases (finish_run_eq_ok_iff allows).mp finished with ⟨complete, built, consistent⟩
    rw [← built] at below
    exact ⟨small, instructions, wire, rest, split, wires, legal, complete, built,
      Program.outputs_below_iff.mpr below, consistent⟩
  · intro given
    rcases given with
      ⟨small, instructions, wire, rest, split, wires, legal, complete, built, below, consistent⟩
    have outputs := Program.outputs_below_iff.mp below
    rw [built] at outputs
    have allows : (State.initial limits bytes).AllowsAll catalog instructions :=
      allowsAll_initial_iff.mpr ⟨legal, outputs⟩
    exact ⟨small, instructions, wire, rest, split, wires, allows,
      (finish_run_eq_ok_iff allows).mpr ⟨complete, built, consistent⟩⟩

end Verdict

end SyscallStream
