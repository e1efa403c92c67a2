import SyscallStream.Decode
import SyscallStream.Proofs.Reading
import SyscallStream.Proofs.VariableTable

/-! What one instruction does to the state of a decoding, and when it is let through.

`State.take` is the effect of an instruction and `State.Allows` its checks. Reading an instruction
succeeds exactly on a wire form of an instruction that is let through. -/

namespace SyscallStream

namespace State

def committed (s : State) : State :=
  match s.pending.syscall? with
  | none => s
  | some syscall =>
    let call := s.pending.toCall syscall
    { s with
      vars := s.vars.mentionAll s.pending.references
      pending := {}
      calls := s.calls.push call
      log := s.log.push (.committed s.calls.size syscall.name call.args.length
        call.copyin.length call.copyout.length) }

def duties (s : State) : List UInt64 :=
  match s.pending.syscall? with
  | none => []
  | some _ => s.pending.references

def Settles (s : State) : Prop := ∀ index ∈ s.duties, index < s.vars.limit

def take (catalog : Catalog) (s : State) : Instruction → State
  | .copyin input =>
    { s.committed with
      vars := s.committed.vars.putAll input.arg.writes
      pending := { s.committed.pending with copyin := s.committed.pending.copyin.push input } }
  | .copyout output =>
    { s with pending := { s.pending with copyout := s.pending.copyout.push output } }
  | .call word index args =>
    { s.committed with
      vars := s.committed.vars.putAll (args.flatMap Arg.writes)
      pending := { s.committed.pending with
        syscall? := catalog.entry? word
        index
        args := s.committed.pending.args ++ args.toArray } }

end State

/-- What an instruction has to satisfy on its own: its variables are below the limit, and a call has
an entry in the catalog and scalar arguments. -/
structure Instruction.Legal (catalog : Catalog) (limit : UInt64) (instruction : Instruction) :
    Prop where
  writes : ∀ write ∈ instruction.writes, write.1 < limit
  call : ∀ word index args, instruction = .call word index args →
    ¬ IsMarker word ∧ (∃ syscall, catalog.Resolves word syscall) ∧ ∀ arg ∈ args, arg.isScalar

/-- An instruction is let through if it is legal and the call it ends may be finished. A copyout
ends no call. -/
structure State.Allows (catalog : Catalog) (s : State) (instruction : Instruction) : Prop where
  legal : instruction.Legal catalog s.vars.limit
  settles : (∀ output, instruction ≠ .copyout output) → s.Settles

namespace Instruction

variable {catalog : Catalog} {limit : UInt64}

theorem legal_copyin {input : Copyin} : (Instruction.copyin input).Legal catalog limit ↔
    ∀ write ∈ input.arg.writes, write.1 < limit := by
  have same : (Instruction.copyin input).writes = input.arg.writes := List.append_nil _
  constructor
  · intro legal
    exact same ▸ legal.writes
  · intro below
    exact ⟨same.symm ▸ below, nofun⟩

theorem legal_copyout (output : Copyout) : (Instruction.copyout output).Legal catalog limit :=
  ⟨List.forall_mem_nil _, nofun⟩

theorem legal_call {word index : UInt64} {args : List Arg} :
    (Instruction.call word index args).Legal catalog limit ↔
      ¬ IsMarker word ∧ (∃ syscall, catalog.Resolves word syscall) ∧
        (∀ arg ∈ args, arg.isScalar) ∧ ∀ write ∈ args.flatMap Arg.writes, write.1 < limit := by
  constructor
  · intro legal
    rcases legal.call word index args rfl with ⟨plain, resolves, scalars⟩
    exact ⟨plain, resolves, scalars, legal.writes⟩
  · intro given
    rcases given with ⟨plain, resolves, scalars, below⟩
    refine ⟨below, ?_⟩
    intro _ _ _ equal
    cases equal
    exact ⟨plain, resolves, scalars⟩

end Instruction

namespace State

variable {catalog : Catalog} {s : State}

theorem allows_copyin {input : Copyin} : s.Allows catalog (.copyin input) ↔
    s.Settles ∧ ∀ write ∈ input.arg.writes, write.1 < s.vars.limit := by
  constructor
  · intro allows
    exact ⟨allows.settles nofun, Instruction.legal_copyin.mp allows.legal⟩
  · intro given
    rcases given with ⟨settles, below⟩
    exact ⟨Instruction.legal_copyin.mpr below, fun _ => settles⟩

theorem allows_copyout (output : Copyout) : s.Allows catalog (.copyout output) :=
  ⟨Instruction.legal_copyout output, fun other => absurd rfl (other output)⟩

theorem allows_call {word index : UInt64} {args : List Arg} :
    s.Allows catalog (.call word index args) ↔
      s.Settles ∧ (Instruction.call word index args).Legal catalog s.vars.limit := by
  constructor
  · intro allows
    exact ⟨allows.settles nofun, allows.legal⟩
  · intro given
    rcases given with ⟨settles, legal⟩
    exact ⟨legal, fun _ => settles⟩

end State

@[simp]
theorem State.limit_committed (s : State) : s.committed.vars.limit = s.vars.limit := by
  unfold State.committed
  split
  · rfl
  · exact Variables.limit_mentionAll _ _

@[simp]
theorem State.cursor_committed (s : State) : s.committed.cursor = s.cursor := by
  unfold State.committed
  split <;> rfl

theorem State.committed_cursor (s : State) (d : Cursor) :
    State.committed { s with cursor := d } = { s.committed with cursor := d } := by
  cases known : s.pending.syscall? <;> simp only [State.committed, known]

theorem State.take_cursor (catalog : Catalog) (s : State) (d : Cursor)
    (instruction : Instruction) :
    State.take catalog { s with cursor := d } instruction =
      { s.take catalog instruction with cursor := d } := by
  cases instruction <;> simp only [State.take, State.committed_cursor]

@[simp]
theorem State.limit_take (catalog : Catalog) (s : State) (instruction : Instruction) :
    (s.take catalog instruction).vars.limit = s.vars.limit := by
  cases instruction <;> simp [State.take]

namespace Decoder

theorem onCursor_eq_ok {α : Type} {reader : Reader α} {s t : State} {a : α} :
    onCursor reader s = .ok a t ↔ ∃ d, reader s.cursor = .ok a d ∧ t = { s with cursor := d } := by
  unfold onCursor
  cases reader s.cursor with
  | ok b d =>
    simp only [EStateM.Result.ok.injEq]
    constructor
    · intro ran
      rcases ran with ⟨rfl, rfl⟩
      exact ⟨d, ⟨rfl, rfl⟩, rfl⟩
    · intro given
      rcases given with ⟨_, ⟨rfl, rfl⟩, rfl⟩
      exact ⟨rfl, rfl⟩
  | error error d => simp

theorem modify_eq_ok {s t : State} {change : State → State} {x : Unit} :
    (modify change : Decoder Unit) s = .ok x t ↔ t = change s := by
  change EStateM.Result.ok () (change s) = .ok x t ↔ _
  simp [eq_comm]

theorem assign_eq_ok {s t : State} {index value : UInt64} {x : Unit} :
    assign index value s = .ok x t ↔
      index < s.vars.limit ∧ t = { s with vars := s.vars.put index value } := by
  unfold assign
  by_cases below : index < s.vars.limit
  · rw [if_pos (Variables.admits_iff.mpr below)]
    simp [below, eq_comm]
  · rw [if_neg (mt Variables.admits_iff.mp below)]
    simp [below]

theorem commit_eq_ok {s t : State} {x : Unit} :
    commit s = .ok x t ↔ s.Settles ∧ t = s.committed := by
  unfold commit State.Settles State.duties State.committed
  cases known : s.pending.syscall? with
  | none => simp [eq_comm]
  | some syscall =>
    simp only
    constructor
    · intro run
      split at run
      · cases run
      · rename_i vars settled
        rcases Variables.referenceAll_eq_ok.mp settled with ⟨below, rfl⟩
        cases run
        exact ⟨below, rfl⟩
    · intro given
      rcases given with ⟨below, rfl⟩
      rw [Variables.referenceAll_eq_ok.mpr ⟨below, rfl⟩]

def record (arg : Arg) : Decoder Arg := do
  match arg with
  | .result result => assign result.index result.fallback
  | _ => pure ()
  return arg

theorem operand_eq : operand = onCursor Arg.read >>= record := rfl

theorem record_eq_ok {s t : State} {read arg : Arg} :
    record read s = .ok arg t ↔ read = arg ∧ (∀ write ∈ arg.writes, write.1 < s.vars.limit) ∧
      t = { s with vars := s.vars.putAll arg.writes } := by
  cases read with
  | result result =>
    simp only [record, bind_eq_ok, assign_eq_ok, pure_eq_ok]
    constructor
    · intro ran
      rcases ran with ⟨_, _, ⟨below, rfl⟩, rfl, rfl⟩
      exact ⟨rfl, List.forall_mem_singleton.mpr below, rfl⟩
    · intro given
      rcases given with ⟨rfl, below, rfl⟩
      exact ⟨(), _, ⟨below _ List.mem_cons_self, rfl⟩, rfl, rfl⟩
  | _ =>
    simp only [record, pure_eq_ok]
    constructor
    · intro ran
      rcases ran with ⟨rfl, rfl⟩
      exact ⟨rfl, List.forall_mem_nil _, rfl⟩
    · intro given
      rcases given with ⟨rfl, _, rfl⟩
      exact ⟨rfl, rfl⟩

theorem operand_eq_ok {s t : State} {arg : Arg} :
    operand s = .ok arg t ↔ ∃ bytes d, arg.Wire bytes ∧ s.cursor.Passes bytes d ∧
      (∀ write ∈ arg.writes, write.1 < s.vars.limit) ∧
      t = { s with cursor := d, vars := s.vars.putAll arg.writes } := by
  simp only [operand_eq, bind_eq_ok, onCursor_eq_ok, Arg.read_eq_ok, record_eq_ok]
  constructor
  · intro ran
    rcases ran with ⟨_, _, ⟨d, ⟨bytes, wire, passes⟩, rfl⟩, rfl, below, rfl⟩
    exact ⟨bytes, d, wire, passes, below, rfl⟩
  · intro given
    rcases given with ⟨bytes, d, wire, passes, below, rfl⟩
    exact ⟨arg, _, ⟨d, ⟨bytes, wire, passes⟩, rfl⟩, rfl, below, rfl⟩

theorem operands_eq_ok {count position : Nat} {s t : State} {x : Unit} :
    operands count position s = .ok x t ↔ ∃ args bytes d, args.length = count ∧
      WireSeq Arg.Wire args bytes ∧ s.cursor.Passes bytes d ∧ (∀ arg ∈ args, arg.isScalar) ∧
      (∀ write ∈ args.flatMap Arg.writes, write.1 < s.vars.limit) ∧
      t = { s with
        cursor := d
        vars := s.vars.putAll (args.flatMap Arg.writes)
        pending := { s.pending with args := s.pending.args ++ args.toArray } } := by
  induction count generalizing position s with
  | zero =>
    simp only [operands, pure_eq_ok, true_and]
    constructor
    · intro equal
      subst equal
      exact ⟨[], [], s.cursor, rfl, .nil, Cursor.passes_nil.mpr rfl, List.forall_mem_nil _,
        List.forall_mem_nil _, by rw [Array.append_empty]; rfl⟩
    · intro given
      rcases given with ⟨args, bytes, d, length, wires, passes, _, _, rfl⟩
      obtain rfl := List.length_eq_zero_iff.mp length
      cases wires
      obtain rfl := Cursor.passes_nil.mp passes
      rw [Array.append_empty]
      rfl
  | succ count ih =>
    simp only [operands, bind_eq_ok, operand_eq_ok]
    constructor
    · intro ran
      rcases ran with ⟨arg, _, ⟨front, u, wire, first, below, rfl⟩, run⟩
      by_cases scalar : arg.isScalar
      · simp only [scalar, if_true, bind_eq_ok, pushArg, modify_eq_ok, ih] at run
        rcases run with ⟨_, _, rfl, args, back, d, rfl, wires, second, scalars, later, rfl⟩
        refine ⟨arg :: args, front ++ back, d, rfl, .cons wire wires,
          Cursor.passes_append.mpr ⟨u, first, second⟩, List.forall_mem_cons.mpr ⟨scalar, scalars⟩,
          ?_, ?_⟩
        · rw [List.flatMap_cons, List.forall_mem_append]
          exact ⟨below, by simpa using later⟩
        · rw [List.flatMap_cons, Variables.putAll_append]
          simp
      · rw [if_neg scalar] at run
        rcases bind_eq_ok.mp run with ⟨_, _, _, run⟩
        cases run
    · intro given
      rcases given with ⟨args, bytes, d, length, wires, passes, scalars, below, rfl⟩
      cases wires with
      | nil => cases length
      | cons wire wires =>
        rcases Cursor.passes_append.mp passes with ⟨u, first, second⟩
        rw [List.forall_mem_cons] at scalars
        rw [List.flatMap_cons, List.forall_mem_append] at below
        refine ⟨_, _, ⟨_, u, wire, first, below.1, rfl⟩, ?_⟩
        simp only [scalars.1, if_true, bind_eq_ok, pushArg, modify_eq_ok, ih]
        refine ⟨(), _, rfl, _, _, d, Nat.succ.inj length, wires, second, scalars.2, ?_, ?_⟩
        · simpa using below.2
        · rw [List.flatMap_cons, Variables.putAll_append]
          simp

theorem lookup_eq_ok {catalog : Catalog} {word : UInt64} {syscall : Syscall} {s t : State} :
    lookup catalog word s = .ok syscall t ↔ catalog.Resolves word syscall ∧ s = t := by
  unfold lookup Catalog.Resolves
  cases catalog.entry? word with
  | none =>
    constructor
    · intro run
      cases run
    · intro given
      rcases given with ⟨⟨found, _⟩, _⟩
      cases found
  | some entry =>
    simp only [Option.some.injEq]
    by_cases own : entry.id = word
    · rw [if_pos own, pure_eq_ok]
      constructor
      · intro ran
        rcases ran with ⟨rfl, rfl⟩
        exact ⟨⟨rfl, own⟩, rfl⟩
      · intro given
        rcases given with ⟨⟨rfl, _⟩, rfl⟩
        exact ⟨rfl, rfl⟩
    · rw [if_neg own]
      constructor
      · intro run
        cases run
      · intro given
        rcases given with ⟨⟨rfl, same⟩, _⟩
        exact absurd same own

theorem call_eq_ok {catalog : Catalog} {word : UInt64} {s t : State} {x : Unit} :
    call catalog word s = .ok x t ↔ ∃ index args bytes d, args.length < UInt64.size ∧
      WireSeq Arg.Wire args bytes ∧
      s.cursor.Passes (encodeWords [index, UInt64.ofNat args.length] ++ bytes) d ∧
      (∃ syscall, catalog.Resolves word syscall) ∧ (∀ arg ∈ args, arg.isScalar) ∧
      (∀ write ∈ args.flatMap Arg.writes, write.1 < s.vars.limit) ∧
      t = { s with
        cursor := d
        vars := s.vars.putAll (args.flatMap Arg.writes)
        pending := { s.pending with
          syscall? := catalog.entry? word
          index
          args := s.pending.args ++ args.toArray } } := by
  simp only [call, bind_eq_ok, lookup_eq_ok, onCursor_eq_ok, readWord_eq_ok, start, modify_eq_ok,
    operands_eq_ok, Cursor.passes_append, Cursor.passes_encodeWords_cons,
    Cursor.passes_encodeWords_nil]
  constructor
  · intro ran
    rcases ran with
      ⟨syscall, _, ⟨resolves, rfl⟩, index, _, ⟨u, first, rfl⟩, _, _, rfl, count, _, ⟨v, second,
        rfl⟩, args, bytes, d, length, wires, rest, scalars, below, rfl⟩
    have announced : UInt64.ofNat args.length = count := by rw [length, UInt64.ofNat_toNat]
    refine ⟨index, args, bytes, d, ?_, wires, ⟨v, ⟨u, first, v, ?_, rfl⟩, rest⟩,
      ⟨syscall, resolves⟩, scalars, below, ?_⟩
    · rw [length]
      exact count.toNat_lt
    · rw [announced]
      exact second
    · rw [resolves.1]
  · intro given
    rcases given with
      ⟨index, args, bytes, d, counted, wires, ⟨_, ⟨u, first, v, second, rfl⟩, rest⟩, ⟨syscall,
        resolves⟩, scalars, below, rfl⟩
    refine ⟨syscall, s, ⟨resolves, rfl⟩, index, _, ⟨u, first, rfl⟩, (), _, rfl,
      UInt64.ofNat args.length, _, ⟨v, second, rfl⟩, args, bytes, d, ?_, wires, rest, scalars,
      below, ?_⟩
    · exact (UInt64.toNat_ofNat_of_lt' counted).symm
    · rw [resolves.1]

def perform (catalog : Catalog) : Opcode → Decoder Bool
  | .stop => do
    commit
    return false
  | .copyin => do
    commit
    let addr ← onCursor readWord
    let arg ← operand
    pushCopyin { addr, arg }
    return true
  | .copyout => do
    let index ← onCursor readWord
    let addr ← onCursor readWord
    let size ← onCursor readWord
    pushCopyout { index, addr, size }
    return true
  | .call word => do
    commit
    call catalog word
    return true

theorem instruction_eq (catalog : Catalog) : instruction catalog =
    onCursor readWord >>= fun word => perform catalog (Opcode.ofWord word) := by
  funext s
  unfold instruction
  congr 1

variable {catalog : Catalog} {s t : State} {more : Bool}

theorem perform_stop_eq_ok : perform catalog .stop s = .ok more t ↔
    more = false ∧ s.Settles ∧ t = s.committed := by
  simp only [perform, bind_eq_ok, commit_eq_ok, pure_eq_ok]
  constructor
  · intro ran
    rcases ran with ⟨_, _, ⟨settles, rfl⟩, rfl, rfl⟩
    exact ⟨rfl, settles, rfl⟩
  · intro given
    rcases given with ⟨rfl, settles, rfl⟩
    exact ⟨(), _, ⟨settles, rfl⟩, rfl, rfl⟩

theorem perform_copyin_eq_ok : perform catalog .copyin s = .ok more t ↔
    ∃ input bytes d, more = true ∧ input.arg.Wire bytes ∧
      s.cursor.Passes (encodeWords [input.addr] ++ bytes) d ∧
      s.Allows catalog (.copyin input) ∧
      t = { s.take catalog (.copyin input) with cursor := d } := by
  simp only [perform, bind_eq_ok, commit_eq_ok, onCursor_eq_ok, readWord_eq_ok, operand_eq_ok,
    pushCopyin, modify_eq_ok, pure_eq_ok, State.allows_copyin, Cursor.passes_append,
    Cursor.passes_encodeWords_cons, Cursor.passes_encodeWords_nil]
  constructor
  · intro ran
    rcases ran with
      ⟨_, _, ⟨settles, rfl⟩, addr, _, ⟨u, first, rfl⟩, arg, _, ⟨bytes, d, wire, rest, below, rfl⟩,
        _, _, rfl, rfl, rfl⟩
    rw [State.cursor_committed] at first
    rw [State.limit_committed] at below
    exact ⟨⟨addr, arg⟩, bytes, d, rfl, wire, ⟨u, ⟨u, first, rfl⟩, rest⟩, ⟨settles, below⟩, rfl⟩
  · intro given
    rcases given with
      ⟨⟨addr, arg⟩, bytes, d, rfl, wire, ⟨_, ⟨u, first, rfl⟩, rest⟩, ⟨settles, below⟩, rfl⟩
    rw [← s.cursor_committed] at first
    rw [← s.limit_committed] at below
    exact ⟨(), _, ⟨settles, rfl⟩, addr, _, ⟨_, first, rfl⟩, arg, _,
      ⟨bytes, d, wire, rest, below, rfl⟩, (), _, rfl, rfl, rfl⟩

theorem perform_copyout_eq_ok : perform catalog .copyout s = .ok more t ↔
    ∃ output d, more = true ∧
      s.cursor.Passes (encodeWords [output.index, output.addr, output.size]) d ∧
      t = { s.take catalog (.copyout output) with cursor := d } := by
  simp only [perform, bind_eq_ok, onCursor_eq_ok, readWord_eq_ok, pushCopyout, modify_eq_ok,
    pure_eq_ok, Cursor.passes_encodeWords_cons, Cursor.passes_encodeWords_nil]
  constructor
  · intro ran
    rcases ran with
      ⟨index, _, ⟨u, first, rfl⟩, addr, _, ⟨v, second, rfl⟩, size, _, ⟨w, third, rfl⟩, _, _, rfl,
        rfl, rfl⟩
    exact ⟨⟨index, addr, size⟩, w, rfl, ⟨u, first, v, second, w, third, rfl⟩, rfl⟩
  · intro given
    rcases given with ⟨⟨index, addr, size⟩, _, rfl, ⟨u, first, v, second, w, third, rfl⟩, rfl⟩
    exact ⟨index, _, ⟨u, first, rfl⟩, addr, _, ⟨v, second, rfl⟩, size, _, ⟨w, third, rfl⟩, (), _,
      rfl, rfl, rfl⟩

theorem perform_call_eq_ok {word : UInt64} (plain : ¬ IsMarker word) :
    perform catalog (.call word) s = .ok more t ↔
      ∃ index args bytes d, more = true ∧ args.length < UInt64.size ∧
        WireSeq Arg.Wire args bytes ∧
        s.cursor.Passes (encodeWords [index, UInt64.ofNat args.length] ++ bytes) d ∧
        s.Allows catalog (.call word index args) ∧
        t = { s.take catalog (.call word index args) with cursor := d } := by
  simp only [perform, bind_eq_ok, commit_eq_ok, call_eq_ok, pure_eq_ok, State.allows_call,
    Instruction.legal_call]
  constructor
  · intro ran
    rcases ran with
      ⟨_, _, ⟨settles, rfl⟩, _, _, ⟨index, args, bytes, d, counted, wires, passes, resolves,
        scalars, below, rfl⟩, rfl, rfl⟩
    rw [State.cursor_committed] at passes
    rw [State.limit_committed] at below
    exact ⟨index, args, bytes, d, rfl, counted, wires, passes,
      ⟨settles, plain, resolves, scalars, below⟩, rfl⟩
  · intro given
    rcases given with
      ⟨index, args, bytes, d, rfl, counted, wires, passes, ⟨settles, _, resolves, scalars, below⟩,
        rfl⟩
    rw [← s.cursor_committed] at passes
    rw [← s.limit_committed] at below
    exact ⟨(), _, ⟨settles, rfl⟩, (), _,
      ⟨index, args, bytes, d, counted, wires, passes, resolves, scalars, below, rfl⟩, rfl, rfl⟩

theorem instruction_eq_ok : instruction catalog s = .ok more t ↔
    ∃ word d, s.cursor.Passes (Word.toBytes word) d ∧
      perform catalog (Opcode.ofWord word) { s with cursor := d } = .ok more t := by
  simp only [instruction_eq, bind_eq_ok, onCursor_eq_ok, readWord_eq_ok]
  constructor
  · intro ran
    rcases ran with ⟨word, _, ⟨d, passes, rfl⟩, run⟩
    exact ⟨word, d, passes, run⟩
  · intro given
    rcases given with ⟨word, d, passes, run⟩
    exact ⟨word, _, ⟨d, passes, rfl⟩, run⟩

theorem instruction_eq_false : instruction catalog s = .ok false t ↔
    ∃ d, s.cursor.Passes (Word.toBytes stopWord) d ∧ s.Settles ∧
      t = { s.committed with cursor := d } := by
  rw [instruction_eq_ok]
  constructor
  · intro ran
    rcases ran with ⟨word, d, passes, run⟩
    have own := Opcode.word_ofWord word
    rcases opcode : Opcode.ofWord word with _ | _ | _ | id
    · rw [opcode] at own run
      obtain rfl : stopWord = word := own
      rcases perform_stop_eq_ok.mp run with ⟨_, settles, rfl⟩
      exact ⟨d, passes, settles, s.committed_cursor d⟩
    · rw [opcode] at run
      rcases perform_copyin_eq_ok.mp run with ⟨_, _, _, another, _⟩
      cases another
    · rw [opcode] at run
      rcases perform_copyout_eq_ok.mp run with ⟨_, _, another, _⟩
      cases another
    · rcases Opcode.ofWord_eq_call.mp opcode with ⟨rfl, plain⟩
      rw [opcode] at run
      rcases (perform_call_eq_ok plain).mp run with ⟨_, _, _, _, another, _⟩
      cases another
  · intro given
    rcases given with ⟨d, passes, settles, rfl⟩
    exact ⟨stopWord, d, passes,
      perform_stop_eq_ok.mpr ⟨rfl, settles, (s.committed_cursor d).symm⟩⟩

/-- Exactness for one instruction: what is read is a wire form of an instruction that is let
through, and every such form is read. -/
theorem instruction_eq_true : instruction catalog s = .ok true t ↔
    ∃ instruction bytes d, instruction.Wire bytes ∧ s.cursor.Passes bytes d ∧
      s.Allows catalog instruction ∧ t = { s.take catalog instruction with cursor := d } := by
  rw [instruction_eq_ok]
  constructor
  · intro ran
    rcases ran with ⟨word, u, first, run⟩
    have own := Opcode.word_ofWord word
    rcases opcode : Opcode.ofWord word with _ | _ | _ | id
    · rw [opcode] at run
      rcases perform_stop_eq_ok.mp run with ⟨last, _⟩
      cases last
    · rw [opcode] at own run
      obtain rfl : copyinWord = word := own
      rcases perform_copyin_eq_ok.mp run with ⟨input, bytes, d, _, wire, rest, allows, rfl⟩
      refine ⟨.copyin input, _, d, .copyin input wire, ?_, ?_, ?_⟩
      · exact Cursor.passes_encodeWords_cons_append.mpr ⟨u, first, rest⟩
      · exact ⟨allows.legal, allows.settles⟩
      · rw [State.take_cursor catalog s u]
    · rw [opcode] at own run
      obtain rfl : copyoutWord = word := own
      rcases perform_copyout_eq_ok.mp run with ⟨output, d, _, rest, rfl⟩
      refine ⟨.copyout output, _, d, .copyout output, ?_, State.allows_copyout output, ?_⟩
      · exact Cursor.passes_encodeWords_cons.mpr ⟨u, first, rest⟩
      · rw [State.take_cursor catalog s u]
    · rcases Opcode.ofWord_eq_call.mp opcode with ⟨rfl, plain⟩
      rw [opcode] at run
      obtain ⟨index, args, bytes, d, _, counted, wires, rest, allows, rfl⟩ :=
        (perform_call_eq_ok plain).mp run
      refine ⟨.call word index args, _, d, .call word index counted wires, ?_, ?_, ?_⟩
      · exact Cursor.passes_encodeWords_cons_append.mpr ⟨u, first, rest⟩
      · exact ⟨allows.legal, allows.settles⟩
      · rw [State.take_cursor catalog s u]
  · intro given
    rcases given with ⟨instruction, bytes, d, wire, passes, allows, rfl⟩
    cases wire with
    | copyin input wire =>
      rcases Cursor.passes_encodeWords_cons_append.mp passes with ⟨u, first, rest⟩
      refine ⟨copyinWord, u, first, perform_copyin_eq_ok.mpr
        ⟨input, _, d, rfl, wire, rest, ⟨allows.legal, allows.settles⟩, ?_⟩⟩
      rw [State.take_cursor catalog s u]
    | copyout output =>
      rcases Cursor.passes_encodeWords_cons.mp passes with ⟨u, first, rest⟩
      refine ⟨copyoutWord, u, first, perform_copyout_eq_ok.mpr ⟨output, d, rfl, rest, ?_⟩⟩
      rw [State.take_cursor catalog s u]
    | call word index counted wires =>
      rcases Cursor.passes_encodeWords_cons_append.mp passes with ⟨u, first, rest⟩
      rcases allows.legal.call _ _ _ rfl with ⟨plain, _⟩
      refine ⟨word, u, first, ?_⟩
      rw [Opcode.ofWord_eq_call.mpr ⟨rfl, plain⟩, perform_call_eq_ok plain]
      refine ⟨index, _, _, d, rfl, counted, wires, rest, ⟨allows.legal, allows.settles⟩, ?_⟩
      rw [State.take_cursor catalog s u]

end Decoder

end SyscallStream
