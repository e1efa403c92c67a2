import SyscallStream.Proofs.Run

/-! How instructions are put together to calls.

An assembly holds the finished calls, the call that still takes copyouts, and the copyins and
copyouts that wait for a call. The state of a decoding stands for an assembly, and an instruction
changes both in the same way. -/

namespace SyscallStream

structure Assembly where
  closed : List Call := []
  /-- The call that still takes copyouts. -/
  current? : Option Call := none
  copyin : List Copyin := []
  copyout : List Copyout := []
  deriving DecidableEq, Repr

namespace Assembly

def calls (a : Assembly) : List Call := a.closed ++ a.current?.toList

def close (a : Assembly) : Assembly := { a with closed := a.calls, current? := none }

def add (catalog : Catalog) (a : Assembly) : Instruction → Assembly
  | .copyin input => { a.close with copyin := a.copyin ++ [input] }
  | .copyout output =>
    match a.current? with
    | some call => { a with current? := some { call with copyout := call.copyout ++ [output] } }
    | none => { a with copyout := a.copyout ++ [output] }
  | .call word index args =>
    { closed := a.calls
      current? := (catalog.entry? word).map fun syscall =>
        { syscall, index, args, copyin := a.copyin, copyout := a.copyout } }

def addAll (catalog : Catalog) (a : Assembly) (instructions : List Instruction) : Assembly :=
  instructions.foldl (Assembly.add catalog) a

/-- The instructions that an assembly was put together from, in canonical order. -/
def parts (a : Assembly) : List Instruction :=
  a.calls.flatMap Call.instructions ++ (a.copyin.map .copyin ++ a.copyout.map .copyout)

def writes (a : Assembly) : List (UInt64 × UInt64) :=
  a.calls.flatMap Call.writes ++ a.copyin.flatMap fun input => input.arg.writes

def Complete (a : Assembly) : Prop := a.copyin = [] ∧ a.copyout = []

variable {catalog : Catalog} {limit : UInt64} {a : Assembly} {instruction : Instruction}
  {instructions : List Instruction}

@[simp]
theorem calls_close (a : Assembly) : a.close.calls = a.calls := List.append_nil _

theorem writes_close (a : Assembly) : a.close.writes = a.writes := by
  rw [writes, calls_close]
  rfl

theorem entry_of_legal {word index : UInt64} {args : List Arg}
    (legal : (Instruction.call word index args).Legal catalog limit) :
    ∃ syscall, catalog.entry? word = some syscall ∧ syscall.id = word :=
  (legal.call word index args rfl).2.1

/-- Nothing is lost, added or changed when instructions are put together. -/
theorem parts_add (legal : instruction.Legal catalog limit) :
    (a.add catalog instruction).parts.Perm (a.parts ++ [instruction]) := by
  rw [List.perm_iff_count]
  intro other
  cases instruction with
  | copyin input =>
    simp only [add, parts, close, calls, Option.toList_none, List.append_nil, List.map_append,
      List.map_cons, List.map_nil, List.count_append]
    omega
  | copyout output =>
    cases current : a.current? with
    | none =>
      simp only [add, parts, calls, current, Option.toList_none, List.append_nil, List.map_append,
        List.map_cons, List.map_nil, List.count_append]
      omega
    | some call =>
      simp only [add, parts, calls, current, Option.toList_some, List.flatMap_append,
        List.flatMap_singleton, Call.instructions, List.map_append, List.map_cons, List.map_nil,
        List.count_append, List.count_cons]
      omega
  | call word index args =>
    rcases entry_of_legal legal with ⟨syscall, found, rfl⟩
    simp only [add, parts, calls, found, Option.map_some, Option.toList_some, List.flatMap_append,
      List.flatMap_singleton, Call.instructions, List.map_nil, List.append_nil,
      List.count_append, List.count_cons, List.count_nil]
    omega

/-- Copyins come before their call, so their writes stay in the order of the stream. -/
theorem writes_add (legal : instruction.Legal catalog limit) :
    (a.add catalog instruction).writes = a.writes ++ instruction.writes := by
  cases instruction with
  | copyin input =>
    simp [add, writes, close, calls, Instruction.writes, Instruction.arguments]
  | copyout output =>
    cases current : a.current? with
    | none => simp [add, writes, calls, current, Instruction.writes, Instruction.arguments]
    | some call =>
      simp [add, writes, calls, current, Call.writes, Call.arguments, Instruction.writes,
        Instruction.arguments]
  | call word index args =>
    rcases entry_of_legal legal with ⟨syscall, found, _⟩
    simp [add, writes, calls, found, Call.writes, Call.arguments, Instruction.writes,
      Instruction.arguments, List.flatMap_map]

theorem parts_addAll (legal : ∀ instruction ∈ instructions, instruction.Legal catalog limit) :
    (a.addAll catalog instructions).parts.Perm (a.parts ++ instructions) := by
  induction instructions generalizing a with
  | nil =>
    rw [List.append_nil]
    exact .refl _
  | cons instruction later ih =>
    rw [List.forall_mem_cons] at legal
    have step := parts_add (a := a) legal.1
    rw [List.append_cons]
    exact (ih legal.2).trans (step.append_right later)

theorem writes_addAll (legal : ∀ instruction ∈ instructions, instruction.Legal catalog limit) :
    (a.addAll catalog instructions).writes =
      a.writes ++ instructions.flatMap Instruction.writes := by
  induction instructions generalizing a with
  | nil => exact (List.append_nil _).symm
  | cons instruction later ih =>
    rw [List.forall_mem_cons] at legal
    calc
      ((a.add catalog instruction).addAll catalog later).writes =
          (a.add catalog instruction).writes ++ later.flatMap Instruction.writes := ih legal.2
      _ = a.writes ++ (instruction :: later).flatMap Instruction.writes := by
        rw [writes_add legal.1, List.flatMap_cons, List.append_assoc]

def Resolved (catalog : Catalog) (a : Assembly) : Prop :=
  ∀ call ∈ a.calls, catalog.entry? call.syscall.id = some call.syscall

theorem resolved_add (legal : instruction.Legal catalog limit) (resolved : a.Resolved catalog) :
    (a.add catalog instruction).Resolved catalog := by
  cases instruction with
  | copyin input =>
    have same : (a.add catalog (.copyin input)).calls = a.calls := calls_close a
    rw [Resolved, same]
    exact resolved
  | copyout output =>
    cases current : a.current? with
    | none => simpa only [Resolved, add, calls, current] using resolved
    | some call =>
      simp only [Resolved, calls, current, Option.toList_some, List.forall_mem_append,
        List.forall_mem_singleton] at resolved
      simp only [Resolved, add, calls, current, Option.toList_some, List.forall_mem_append,
        List.forall_mem_singleton]
      exact resolved
  | call word index args =>
    rcases entry_of_legal legal with ⟨syscall, found, rfl⟩
    simp only [Resolved, add, calls, found, Option.map_some, Option.toList_some,
      List.forall_mem_append, List.forall_mem_singleton, and_true]
    exact List.forall_mem_append.mp resolved

theorem resolved_addAll (legal : ∀ instruction ∈ instructions, instruction.Legal catalog limit)
    (resolved : a.Resolved catalog) : (a.addAll catalog instructions).Resolved catalog := by
  induction instructions generalizing a with
  | nil => exact resolved
  | cons instruction later ih =>
    rw [List.forall_mem_cons] at legal
    exact ih legal.2 (resolved_add legal.1 resolved)

theorem closed_add_copyout (a : Assembly) (output : Copyout) :
    (a.add catalog (.copyout output)).closed = a.closed := by
  cases current : a.current? <;> simp only [add, current]

theorem closed_add (other : ∀ output, instruction ≠ .copyout output) :
    (a.add catalog instruction).closed = a.calls := by
  cases instruction with
  | copyin input => rfl
  | copyout output => exact absurd rfl (other output)
  | call word index args => rfl

theorem closed_subset_add (a : Assembly) (instruction : Instruction) :
    a.closed ⊆ (a.add catalog instruction).closed := by
  intro call member
  cases instruction with
  | copyin input => exact List.mem_append_left _ member
  | copyout output =>
    rw [closed_add_copyout]
    exact member
  | call word index args => exact List.mem_append_left _ member

theorem closed_subset_addAll (a : Assembly) (instructions : List Instruction) :
    a.closed ⊆ (a.addAll catalog instructions).calls := by
  induction instructions generalizing a with
  | nil =>
    intro call member
    exact List.mem_append_left _ member
  | cons instruction later ih =>
    intro call member
    exact ih (a.add catalog instruction) (closed_subset_add a instruction member)

theorem addAll_append (front back : List Instruction) :
    a.addAll catalog (front ++ back) = (a.addAll catalog front).addAll catalog back :=
  List.foldl_append

theorem addAll_copyin (catalog : Catalog) (inputs : List Copyin) :
    (a.addAll catalog (inputs.map .copyin)).calls = a.calls ∧
      (a.addAll catalog (inputs.map .copyin)).copyin = a.copyin ++ inputs ∧
      (a.addAll catalog (inputs.map .copyin)).copyout = a.copyout := by
  induction inputs generalizing a with
  | nil => exact ⟨rfl, (List.append_nil _).symm, rfl⟩
  | cons input inputs ih =>
    rcases ih (a := a.add catalog (.copyin input)) with ⟨calls, copyin, copyout⟩
    refine ⟨calls.trans (calls_close a), copyin.trans ?_, copyout⟩
    exact List.append_assoc _ _ _

theorem addAll_copyout {call : Call} (current : a.current? = some call)
    (outputs : List Copyout) :
    a.addAll catalog (outputs.map .copyout) =
      { a with current? := some { call with copyout := call.copyout ++ outputs } } := by
  induction outputs generalizing a call with
  | nil =>
    rw [List.append_nil, ← current]
    rfl
  | cons output outputs ih =>
    have step : a.add catalog (.copyout output) =
        { a with current? := some { call with copyout := call.copyout ++ [output] } } := by
      simp only [add, current]
    change (a.add catalog (.copyout output)).addAll catalog (outputs.map .copyout) = _
    rw [step, ih rfl, List.append_assoc]
    rfl

theorem addAll_call {call : Call} (complete : a.Complete)
    (found : catalog.entry? call.syscall.id = some call.syscall) :
    (a.addAll catalog call.instructions).calls = a.calls ++ [call] ∧
      (a.addAll catalog call.instructions).Complete := by
  rcases addAll_copyin (a := a) catalog call.copyin with ⟨calls, copyin, copyout⟩
  rw [complete.1, List.nil_append] at copyin
  rw [complete.2] at copyout
  have started : (a.addAll catalog (call.copyin.map .copyin)).add catalog
      (.call call.syscall.id call.index call.args) =
      { closed := a.calls, current? := some { call with copyout := [] } } := by
    simp only [add, found, Option.map_some, calls, copyin, copyout]
  have finished : a.addAll catalog call.instructions =
      { closed := a.calls, current? := some call } := by
    rw [Call.instructions, addAll_append]
    change ((a.addAll catalog (call.copyin.map .copyin)).add catalog _).addAll catalog _ = _
    rw [started, addAll_copyout rfl]
    rfl
  rw [finished]
  exact ⟨rfl, rfl, rfl⟩

theorem addAll_calls {list : List Call} (complete : a.Complete)
    (found : ∀ call ∈ list, catalog.entry? call.syscall.id = some call.syscall) :
    (a.addAll catalog (list.flatMap Call.instructions)).calls = a.calls ++ list ∧
      (a.addAll catalog (list.flatMap Call.instructions)).Complete := by
  induction list generalizing a with
  | nil => exact ⟨(List.append_nil _).symm, complete⟩
  | cons call list ih =>
    rw [List.forall_mem_cons] at found
    rcases addAll_call complete found.1 with ⟨calls, waiting⟩
    rw [List.flatMap_cons, addAll_append, List.append_cons, ← calls]
    exact ih waiting found.2

end Assembly

def assemble (catalog : Catalog) (instructions : List Instruction) : Assembly :=
  Assembly.addAll catalog {} instructions

section Assemble

variable {catalog : Catalog} {limit : UInt64} {instructions : List Instruction}
  {program : Program}

theorem writes_assemble {a : Assembly} (complete : a.Complete)
    (built : program.calls = a.calls) : a.writes = program.writes := by
  rw [Assembly.writes, complete.1, Program.writes, built]
  exact List.append_nil _

/-- A program has the instructions of its stream, in an order of its own. -/
theorem instructions_perm
    (legal : ∀ instruction ∈ instructions, instruction.Legal catalog limit)
    (complete : (assemble catalog instructions).Complete)
    (built : program.calls = (assemble catalog instructions).calls) :
    program.instructions.Perm instructions := by
  have perm := Assembly.parts_addAll (a := {}) legal
  change (assemble catalog instructions).parts.Perm instructions at perm
  rw [Assembly.parts, complete.1, complete.2, ← built] at perm
  simpa [Program.instructions] using perm

theorem assemble_instructions
    (found : ∀ call ∈ program.calls, catalog.entry? call.syscall.id = some call.syscall) :
    (assemble catalog program.instructions).Complete ∧
      program.calls = (assemble catalog program.instructions).calls := by
  rcases Assembly.addAll_calls (a := {}) ⟨rfl, rfl⟩ found with ⟨calls, complete⟩
  exact ⟨complete, calls.symm⟩

end Assemble

namespace State

def assembly (s : State) : Assembly :=
  match s.pending.syscall? with
  | none =>
    { closed := s.calls.toList
      copyin := s.pending.copyin.toList
      copyout := s.pending.copyout.toList }
  | some syscall => { closed := s.calls.toList, current? := some (s.pending.toCall syscall) }

/-- While no call is open, no argument waits for one. -/
def Tidy (s : State) : Prop := s.pending.syscall? = none → s.pending.args = #[]

variable {catalog : Catalog} {s : State} {instruction : Instruction}
  {instructions : List Instruction}

theorem syscall_committed (s : State) : s.committed.pending.syscall? = none := by
  unfold committed
  split
  · assumption
  · rfl

theorem assembly_of_idle (idle : s.pending.syscall? = none) :
    s.assembly = Assembly.mk s.calls.toList none s.pending.copyin.toList
      s.pending.copyout.toList := by
  rw [assembly, idle]

theorem assembly_committed (s : State) : s.committed.assembly = s.assembly.close := by
  cases open? : s.pending.syscall? with
  | none => simp [committed, assembly, open?, Assembly.close, Assembly.calls]
  | some syscall => simp [committed, assembly, open?, Assembly.close, Assembly.calls]

theorem committed_eq_assembly (s : State) :
    s.committed.calls.toList = s.assembly.calls ∧
      s.committed.pending.copyin.toList = s.assembly.copyin ∧
      s.committed.pending.copyout.toList = s.assembly.copyout := by
  have same := (assembly_of_idle (syscall_committed s)).symm.trans (assembly_committed s)
  rw [Assembly.close, Assembly.mk.injEq] at same
  exact ⟨same.1, same.2.2⟩

theorem args_committed (tidy : s.Tidy) : s.committed.pending.args = #[] := by
  cases open? : s.pending.syscall? with
  | none =>
    rw [committed, open?]
    exact tidy open?
  | some syscall => rw [committed, open?]

theorem tidy_take (legal : instruction.Legal catalog s.vars.limit) (tidy : s.Tidy) :
    (s.take catalog instruction).Tidy := by
  cases instruction with
  | copyin input =>
    intro _
    exact args_committed tidy
  | copyout output => exact tidy
  | call word index args =>
    rcases Assembly.entry_of_legal legal with ⟨syscall, found, _⟩
    intro (missing : catalog.entry? word = none)
    rw [found] at missing
    cases missing

theorem assembly_take (legal : instruction.Legal catalog s.vars.limit) (tidy : s.Tidy) :
    (s.take catalog instruction).assembly = s.assembly.add catalog instruction := by
  rcases committed_eq_assembly s with ⟨calls, copyin, copyout⟩
  cases instruction with
  | copyin input =>
    have idle : (s.take catalog (.copyin input)).pending.syscall? = none := syscall_committed s
    rw [assembly_of_idle idle]
    simp only [take, Array.toList_push, calls, copyin, copyout]
    rfl
  | copyout output =>
    cases open? : s.pending.syscall? with
    | none => simp [take, assembly, open?, Assembly.add]
    | some syscall => simp [take, assembly, open?, Assembly.add, Pending.toCall]
  | call word index args =>
    rcases Assembly.entry_of_legal legal with ⟨syscall, found, _⟩
    have noArgs := args_committed tidy
    simp only [take, Assembly.add, found, Option.map_some]
    rw [assembly]
    simp only [Pending.toCall, calls, copyin, copyout, noArgs, Array.toList_append,
      List.nil_append]

theorem assembly_takeAll
    (legal : ∀ instruction ∈ instructions, instruction.Legal catalog s.vars.limit)
    (tidy : s.Tidy) :
    (s.takeAll catalog instructions).assembly = s.assembly.addAll catalog instructions := by
  induction instructions generalizing s with
  | nil => rfl
  | cons instruction later ih =>
    rw [List.forall_mem_cons] at legal
    calc
      ((s.take catalog instruction).takeAll catalog later).assembly =
          (s.take catalog instruction).assembly.addAll catalog later :=
        ih (by simpa using legal.2) (tidy_take legal.1 tidy)
      _ = s.assembly.addAll catalog (instruction :: later) := by
        rw [assembly_take legal.1 tidy]
        rfl

end State

end SyscallStream
