import SyscallStream.Proofs.Transition

/-! Whole runs: decoding succeeds exactly on the wire form of a list of instructions that are let
through one after the other, followed by the stop word and anything else. -/

namespace SyscallStream

namespace State

def AllowsAll (catalog : Catalog) : State → List Instruction → Prop
  | s, [] => s.Settles
  | s, instruction :: later =>
    s.Allows catalog instruction ∧ (s.take catalog instruction).AllowsAll catalog later

def takeAll (catalog : Catalog) (s : State) (instructions : List Instruction) : State :=
  instructions.foldl (State.take catalog) s

variable {catalog : Catalog} {s : State} {d : Cursor} {instructions : List Instruction}

theorem allowsAll_cursor :
    AllowsAll catalog { s with cursor := d } instructions ↔ s.AllowsAll catalog instructions := by
  induction instructions generalizing s with
  | nil => exact Iff.rfl
  | cons instruction later ih =>
    rw [AllowsAll, AllowsAll, take_cursor, ih]
    constructor
    · intro ran
      rcases ran with ⟨allows, rest⟩
      exact ⟨⟨allows.legal, allows.settles⟩, rest⟩
    · intro given
      rcases given with ⟨allows, rest⟩
      exact ⟨⟨allows.legal, allows.settles⟩, rest⟩

theorem takeAll_cursor :
    takeAll catalog { s with cursor := d } instructions =
      { s.takeAll catalog instructions with cursor := d } := by
  induction instructions generalizing s with
  | nil => rfl
  | cons instruction later ih =>
    change takeAll catalog (take catalog { s with cursor := d } instruction) later = _
    rw [take_cursor, ih]
    rfl

end State

namespace Decoder

theorem instructions_of_error {catalog : Catalog} {s t : State} {error : DecodeError}
    (ran : instruction catalog s = .error error t) :
    instructions catalog s = .error error t := by
  rw [instructions]
  split <;> simp_all

theorem instructions_of_false {catalog : Catalog} {s t : State}
    (ran : instruction catalog s = .ok false t) : instructions catalog s = .ok () t := by
  rw [instructions]
  split <;> simp_all

theorem instructions_of_true {catalog : Catalog} {s t : State}
    (ran : instruction catalog s = .ok true t) :
    instructions catalog s = instructions catalog t := by
  rw [instructions]
  split <;> simp_all

theorem instructions_of_wire {catalog : Catalog} {s : State} {list : List Instruction}
    {bytes : Bytes} {d : Cursor} (wires : WireSeq Instruction.Wire list bytes)
    (passes : s.cursor.Passes (bytes ++ Word.toBytes stopWord) d)
    (allows : s.AllowsAll catalog list) :
    instructions catalog s = .ok () { (s.takeAll catalog list).committed with cursor := d } := by
  induction wires generalizing s with
  | nil => exact instructions_of_false (instruction_eq_false.mpr ⟨d, passes, allows, rfl⟩)
  | cons wire wires ih =>
    rw [List.append_assoc, Cursor.passes_append] at passes
    rcases passes with ⟨u, first, rest⟩
    rw [instructions_of_true (instruction_eq_true.mpr ⟨_, _, u, wire, first, allows.1, rfl⟩)]
    have run := ih (s := { s.take catalog _ with cursor := u }) rest
      (State.allowsAll_cursor.mpr allows.2)
    rw [run, State.takeAll_cursor, State.committed_cursor]
    rfl

theorem wire_of_instructions {catalog : Catalog} {s t : State}
    (run : instructions catalog s = .ok () t) :
    ∃ list bytes d, WireSeq Instruction.Wire list bytes ∧
      s.cursor.Passes (bytes ++ Word.toBytes stopWord) d ∧ s.AllowsAll catalog list ∧
      t = { (s.takeAll catalog list).committed with cursor := d } := by
  induction s using instructions.induct catalog with
  | case1 s error u ran =>
    rw [instructions_of_error ran] at run
    cases run
  | case2 s u ran =>
    rw [instructions_of_false ran] at run
    cases run
    rcases instruction_eq_false.mp ran with ⟨d, passes, settles, rfl⟩
    exact ⟨[], [], d, .nil, passes, settles, rfl⟩
  | case3 s u ran shorter ih =>
    rw [instructions_of_true ran] at run
    rcases ih run with ⟨list, back, d, wires, rest, allows, rfl⟩
    rcases instruction_eq_true.mp ran with ⟨instruction, front, v, wire, first, allowed, rfl⟩
    refine ⟨instruction :: list, front ++ back, d, .cons wire wires, ?_, ?_, ?_⟩
    · rw [List.append_assoc]
      exact Cursor.passes_append.mpr ⟨v, first, rest⟩
    · exact ⟨allowed, State.allowsAll_cursor.mp allows⟩
    · rw [State.takeAll_cursor, State.committed_cursor]
      rfl

end Decoder

theorem decode_eq_ok_iff_instructions {catalog : Catalog} {limits : Limits} {bytes : Bytes}
    {program : Program} :
    decode catalog limits bytes = .ok program ↔ bytes.length ≤ limits.maxBytes.toNat ∧
      ∃ s, Decoder.instructions catalog (.initial limits bytes) = .ok () s ∧
        s.finish = .ok program := by
  unfold decode decodeWithLog
  by_cases large : limits.maxBytes.toNat < bytes.length
  · simp only [if_pos large]
    constructor
    · intro refused
      cases refused
    · intro given
      rcases given with ⟨small, _⟩
      omega
  · simp only [if_neg large]
    have small : bytes.length ≤ limits.maxBytes.toNat := by omega
    cases Decoder.instructions catalog (.initial limits bytes) with
    | error error s => simp
    | ok done s =>
      cases finished : s.finish with
      | error error => simp [finished]
      | ok built => simp [finished, small]

/-- Decoding in terms of instructions: the stream is the wire form of a list that is let through,
the stop word and a rest, and the state that the list leaves can be finished. -/
theorem decode_eq_ok_iff_run {catalog : Catalog} {limits : Limits} {bytes : Bytes}
    {program : Program} :
    decode catalog limits bytes = .ok program ↔ bytes.length ≤ limits.maxBytes.toNat ∧
      ∃ list wire rest, bytes = wire ++ Word.toBytes stopWord ++ rest ∧
        WireSeq Instruction.Wire list wire ∧
        (State.initial limits bytes).AllowsAll catalog list ∧
        ((State.initial limits bytes).takeAll catalog list).committed.finish = .ok program := by
  rw [decode_eq_ok_iff_instructions]
  constructor
  · intro ran
    rcases ran with ⟨small, s, run, finished⟩
    rcases Decoder.wire_of_instructions run with ⟨list, wire, d, wires, passes, allows, rfl⟩
    exact ⟨small, list, wire, d.rest, passes.1, wires, allows, finished⟩
  · intro given
    rcases given with ⟨small, list, wire, rest, split, wires, allows, finished⟩
    have enough : (wire ++ Word.toBytes stopWord).length ≤
        (State.initial limits bytes).cursor.remaining := by
      have total := congrArg List.length split
      rw [List.length_append] at total
      change _ ≤ bytes.length
      omega
    have passes := Cursor.passes_take enough
    have start : (State.initial limits bytes).cursor.rest.take
        (wire ++ Word.toBytes stopWord).length = wire ++ Word.toBytes stopWord := by
      change bytes.take _ = _
      rw [split, List.take_left]
    rw [start] at passes
    exact ⟨small, _, Decoder.instructions_of_wire wires passes allows, finished⟩

end SyscallStream
