import SyscallStream.Proofs.Acceptance
import SyscallStream.Proofs.Lockstep

/-! Room for chunks. The recorder reads a stream by the steps of the decoder, and keeps a record of
the room that is made on the way. Without the record it is the decoder. -/

namespace SyscallStream

structure Reservation where
  room : Nat
  left : Nat
  deriving DecidableEq, Repr

structure Ledger where
  state : State
  reservations : List Reservation := []

def Ledger.note (ledger : Ledger) (room : Nat) : Ledger :=
  { ledger with reservations := ledger.reservations ++ [⟨room, ledger.state.remaining⟩] }

def Ledger.rooms (ledger : Ledger) : List Nat := ledger.reservations.map (·.room)

/-- Behind those given, no room was made that the bytes left at that time could not fill. -/
def Ledger.Grown (given : List Reservation) (ledger : Ledger) : Prop :=
  ∃ made, ledger.reservations = given ++ made ∧
    ∀ reservation ∈ made, reservation.room ≤ reservation.left / 24

abbrev Recorder := EStateM DecodeError Ledger

namespace Recorder

def silently {α : Type} (step : Decoder α) : Recorder α := fun ledger =>
  match step ledger.state with
  | .ok a state => .ok a { ledger with state }
  | .error error state => .error error { ledger with state }

def noting (step : Decoder ChunkBuffer) : Recorder ChunkBuffer := do
  let buffer ← silently step
  modify (Ledger.note · buffer.room)
  return buffer

def steps (catalog : Catalog) : Steps Recorder :=
  let own := Decoder.steps catalog
  { word := silently own.word
    blob size := silently (own.blob size)
    reserve count := noting (own.reserve count)
    refuse error := silently (own.refuse error)
    lookup word := silently (own.lookup word)
    assign index value := silently (own.assign index value)
    commit := silently own.commit
    start syscall index := silently (own.start syscall index)
    pushArg arg := silently (own.pushArg arg)
    pushCopyin copyin := silently (own.pushCopyin copyin)
    pushCopyout copyout := silently (own.pushCopyout copyout)
    finished := silently own.finished }

def instructions (catalog : Catalog) : (count : Nat) → Recorder Unit
  | 0 => return
  | count + 1 => do
    let more ← (steps catalog).instruction
    if more then instructions catalog count else return

def ledger {α : Type} : EStateM.Result DecodeError Ledger α → Ledger
  | .ok _ ledger | .error _ ledger => ledger

end Recorder

/-- The room that is made while a stream is decoded, whatever the verdict will be. -/
def reservations (catalog : Catalog) (limits : Limits) (bytes : Bytes) : List Reservation :=
  if limits.maxBytes.toNat < bytes.length then []
  else
    (Recorder.ledger (Recorder.instructions catalog (bytes.length / wordSize + 1)
      { state := .initial limits bytes })).reservations

section Capacity

theorem Chunk.capacity_le (c : Cursor) (count : UInt64) :
    Chunk.capacity c count ≤ c.remaining / 24 :=
  Nat.min_le_right _ _

theorem Chunk.length_encode (chunk : Chunk) : chunk.encode.length = 24 := by
  rw [Chunk.encode, length_encodeWords]
  rfl

end Capacity

namespace Recorder

section Erasure

variable {given : List Reservation}

def tie (given : List Reservation) : Tie DecodeError State DecodeError Ledger where
  states _ s ledger := ledger.state = s ∧ ledger.Grown given
  refusals error s error' ledger := error' = error ∧ ledger.state = s ∧ ledger.Grown given
  excused _ := False
  anywhere := id

theorem silently_inStep {α : Type} {before after : Phase} (step : Decoder α) :
    (tie given).InStep before after Eq step (silently step) := by
  rintro s ledger ⟨rfl, grown⟩
  unfold silently
  cases step ledger.state with
  | ok a t => exact .ok rfl ⟨rfl, grown⟩
  | error error t => exact .error ⟨rfl, rfl, grown⟩

theorem reserve_inStep {phase : Phase} (count : UInt64) :
    (tie given).InStep phase phase Eq (Decoder.onCursor (Chunk.reserve count))
      (noting (Decoder.onCursor (Chunk.reserve count))) := by
  rintro s ledger ⟨rfl, made, same, fit⟩
  let room := Chunk.capacity ledger.state.cursor count
  refine .ok rfl ⟨rfl, made ++ [⟨room, ledger.state.remaining⟩], ?_, ?_⟩
  · rw [← List.append_assoc, ← same]
    rfl
  · intro reservation member
    rcases List.mem_append.mp member with old | new
    · exact fit reservation old
    · cases List.mem_singleton.mp new
      exact Chunk.capacity_le _ _

theorem steps_inStep (catalog : Catalog) :
    Steps.Tied (tie given) Eq (Decoder.steps catalog) (steps catalog) where
  word _ := silently_inStep _
  blob _ _ := silently_inStep _
  reserve _ count := reserve_inStep count
  refuse _ _ _ _ := silently_inStep _
  lookup _ := silently_inStep _
  assign _ _ _ := silently_inStep _
  commit := silently_inStep _
  start same _ := same ▸ silently_inStep _
  pushArg _ := silently_inStep _
  pushCopyin _ := silently_inStep _
  pushCopyout _ := silently_inStep _
  finished := silently_inStep _

theorem instructions_inStep (catalog : Catalog) {count : Nat} {s : State} {ledger : Ledger}
    (enough : s.remaining / wordSize < count) (state : (tie given).states .anywhere s ledger) :
    (tie given).Ends .anywhere Eq (Decoder.instructions catalog s)
      (instructions catalog count ledger) :=
  Decoder.bounded_inStep (steps_inStep catalog) (fun _ => rfl) enough state

end Erasure

end Recorder

def Arg.rooms : Arg → List Nat
  | .checksum arg => [arg.chunks.length]
  | _ => []

/-- A checksum is no argument of a call itself, so it stands in a copyin. -/
def Call.rooms (call : Call) : List Nat := call.copyin.flatMap (·.arg.rooms)

def Program.rooms (program : Program) : List Nat := program.calls.flatMap (·.rooms)

def State.rooms (state : State) : List Nat :=
  state.calls.toList.flatMap (·.rooms) ++ state.pending.copyin.toList.flatMap (·.arg.rooms)

namespace Recorder

/-- Of the room that was made, the state accounts for all but `before`, and then for all but
`after`. -/
def Owes {α : Type} (account : State → List Nat) (before : List Nat) (step : Recorder α)
    (after : α → List Nat) : Prop :=
  ∀ ledger a ledger', step ledger = .ok a ledger' →
    ledger.rooms = account ledger.state ++ before →
    ledger'.rooms = account ledger'.state ++ after a

namespace Owes

variable {α β : Type} {account : State → List Nat} {before : List Nat} {after : α → List Nat}

theorem pure {a : α} (same : before = after a) : Owes account before (Pure.pure a) after := by
  rintro ledger _ _ ⟨⟩ balanced
  rw [← same]
  exact balanced

theorem bind {step : Recorder α} {next : α → Recorder β} {final : β → List Nat}
    (first : Owes account before step after)
    (second : ∀ a, Owes account (after a) (next a) final) :
    Owes account before (step >>= next) final := by
  intro ledger b ledger' ran balanced
  rcases bind_eq_ok.mp ran with ⟨a, middle, stepped, rest⟩
  exact second a middle b ledger' rest (first ledger a middle stepped balanced)

theorem silently {step : Decoder α} (keeps : ∀ s a t, step s = .ok a t → account t = account s) :
    Owes account before (silently step) fun _ => before := by
  intro ledger a ledger' ran balanced
  unfold Recorder.silently at ran
  split at ran
  · rename_i stepped
    cases ran
    change ledger.rooms = _
    rw [keeps _ _ _ stepped, balanced]
  · cases ran

theorem refuse {step : Recorder α} (fails : ∀ ledger a ledger', step ledger ≠ .ok a ledger') :
    Owes account before step after :=
  fun ledger a ledger' ran => absurd ran (fails ledger a ledger')

end Owes

section Reading

variable {catalog : Catalog} {account : State → List Nat} {before : List Nat}
  (still : ∀ s cursor vars, account { s with cursor, vars } = account s)
include still

end Reading

section Runs

variable {catalog : Catalog}

end Runs

end Recorder

section Outcomes

variable (catalog : Catalog)

end Outcomes

end SyscallStream
