import SyscallStream.Proofs.Extension
import SyscallStream.Proofs.Laws

/-! Why a stream is refused while it is read. Every error has its reason in the state it leaves, and
whether a step succeeds or fails, the log holds one event for every finished call. -/

namespace SyscallStream

inductive Cursor.Stuck : DecodeError → Cursor → Prop
  | short {d : Cursor} {needed : Nat} (short : d.remaining < needed) : Stuck (d.overflow needed) d
  | kind {c d : Cursor} {word : UInt64} (read : readWord c = .ok word d)
      (unknown : ArgKind.ofWord? word = none) : Stuck (.badArgKind word) d
  | checksum {c d : Cursor} {word : UInt64} (read : readWord c = .ok word d)
      (unknown : ChecksumKind.ofWord? word = none) : Stuck (.unknownChecksum word) d

section Readers

abbrev Explains {α : Type} (reader : Reader α) : Prop :=
  Guards (fun _ => True) Cursor.Stuck reader

theorem Demands.explains {α : Type} {size : Nat} {reader : Reader α}
    (demands : Demands size reader) : Explains reader := by
  intro c _
  rcases demands c with ⟨_, a, read⟩ | ⟨short, read⟩
  · rw [read]
    trivial
  · rw [read]
    exact ⟨trivial, .short short⟩

end Readers

inductive Decoder.Refusal (catalog : Catalog) : DecodeError → State → Prop
  | stuck {error : DecodeError} {s : State} (stuck : s.cursor.Stuck error) : Refusal catalog error s
  | index {s : State} {index : UInt64} (beyond : s.vars.limit ≤ index) :
      Refusal catalog (s.vars.refusal index) s
  | unknown {s : State} {c : Cursor} {word : UInt64} (read : readWord c = .ok word s.cursor)
      (plain : ¬ IsMarker word) (missing : catalog.entry? word = none) :
      Refusal catalog (.badSyscall word catalog.size) s
  | foreign {s : State} {c : Cursor} {word : UInt64} {syscall : Syscall}
      (read : readWord c = .ok word s.cursor) (plain : ¬ IsMarker word)
      (found : catalog.entry? word = some syscall) (other : syscall.id ≠ word) :
      Refusal catalog (.idMismatch word syscall.id) s
  | argument {s : State} {arg : Arg} (position : Nat) (compound : arg.isScalar = false) :
      Refusal catalog (.badCallArg s.calls.size position arg.kind) s

/-- What an error says about the catalog and the calls, if it came up in the middle of a stream. -/
def Decoder.Meaning (catalog : Catalog) (s : State) : DecodeError → Prop
  | .badSyscall word count => catalog.entry? word = none ∧ count = catalog.size
  | .idMismatch word id =>
    id ≠ word ∧ ∃ syscall, catalog.entry? word = some syscall ∧ syscall.id = id
  | .badCallArg call _ _ => call = s.calls.size
  | .dangling .. | .varsMismatch .. | .programTooLarge .. => False
  | _ => True

theorem Decoder.Refusal.meaning {catalog : Catalog} {error : DecodeError} {s : State}
    (refusal : Refusal catalog error s) : Meaning catalog s error := by
  cases refusal with
  | stuck stuck => cases stuck <;> trivial
  | index => trivial
  | unknown read plain missing => exact ⟨missing, rfl⟩
  | foreign read plain found other => exact ⟨other, _, found, rfl⟩
  | argument => rfl

def Call.event (position : Nat) (call : Call) : Event :=
  .committed position call.syscall.name call.args.length call.copyin.length call.copyout.length

def State.Logged (s : State) : Prop := s.log.toList = s.calls.toList.mapIdx Call.event

theorem State.Logged.committed {s : State} (logged : s.Logged) : s.committed.Logged := by
  unfold State.committed
  cases s.pending.syscall? with
  | none => exact logged
  | some syscall =>
    simp only [State.Logged, Array.toList_push, List.mapIdx_append, List.mapIdx_cons,
      List.mapIdx_nil, Array.length_toList, Nat.zero_add]
    rw [logged]
    rfl

namespace Decoder

abbrev Accounts {α : Type} (catalog : Catalog) (step : Decoder α) : Prop :=
  Guards State.Logged (Refusal catalog) step

theorem onCursor_accounts {α : Type} {catalog : Catalog} {reader : Reader α}
    (explains : Explains reader) : Accounts catalog (onCursor reader) := by
  apply onCursor_guards
  intro s logged
  exact (explains s.cursor trivial).imp (fun _ _ => logged) fun _ _ stuck => .stuck stuck

theorem guarding_accounts (catalog : Catalog) :
    Guarding catalog State.Logged (Refusal catalog) where
  word := onCursor_accounts readWord_demands.explains
  blob word := onCursor_accounts (readBlob_demands (DataArg.toNat_sizeOfWord_add_lt word)).explains
  kind _ read unknown := .stuck (.kind (readWord_of_step read) unknown)
  checksum _ read unknown := .stuck (.checksum (readWord_of_step read) unknown)
  missing _ read plain missing := .unknown (readWord_of_committed read) plain missing
  foreign _ read plain found other := .foreign (readWord_of_committed read) plain found other
  index _ beyond := .index beyond
  misplaced _ position compound := .argument position compound
  committed logged := logged.committed
  vars logged _ := logged
  pending logged _ := logged

theorem instructions_accounts (catalog : Catalog) : Accounts catalog (instructions catalog) :=
  (guarding_accounts catalog).instructions

end Decoder

theorem State.logged_initial (limits : Limits) (bytes : Bytes) :
    (State.initial limits bytes).Logged := rfl

/-- The errors that are found once the stop word was read. -/
def DecodeError.AtEnd : DecodeError → Prop
  | .dangling .. | .varsMismatch .. => True
  | _ => False

theorem State.atEnd_of_finish {s : State} {error : DecodeError}
    (refused : s.finish = .error error) : error.AtEnd := by
  unfold State.finish Variables.close at refused
  split at refused
  · split at refused
    · rename_i closed
      split at closed
      · cases closed
      · cases closed
        cases refused
        trivial
    · cases refused
  · cases refused
    trivial

/-- An error of a stream that is not too large comes up at its end, or it has its reason in the
state that the run breaks off in. -/
theorem refusal_of_decode {catalog : Catalog} {limits : Limits} {bytes : Bytes}
    {error : DecodeError} (small : bytes.length ≤ limits.maxBytes.toNat)
    (refused : decode catalog limits bytes = .error error) :
    error.AtEnd ∨ ∃ s, Decoder.Refusal catalog error s := by
  have accounts := Decoder.instructions_accounts catalog _ (State.logged_initial limits bytes)
  rw [decode_eq_verdict small] at refused
  cases run : Decoder.instructions catalog (.initial limits bytes) with
  | error error s =>
    rw [run] at accounts refused
    cases refused
    exact .inr ⟨s, accounts.2⟩
  | ok done s =>
    rw [run] at refused
    exact .inl (State.atEnd_of_finish refused)

theorem meaning_of_decode {catalog : Catalog} {limits : Limits} {bytes : Bytes}
    {error : DecodeError} (refused : decode catalog limits bytes = .error error)
    (sized : ∀ size limit, error ≠ .programTooLarge size limit) (amid : ¬ error.AtEnd) :
    ∃ s, Decoder.Meaning catalog s error := by
  rcases Nat.lt_or_ge limits.maxBytes.toNat bytes.length with large | small
  · rw [decode_too_large large] at refused
    exact absurd (Except.error.inj refused).symm (sized _ _)
  · rcases refusal_of_decode small refused with last | ⟨s, refusal⟩
    · exact absurd last amid
    · exact ⟨s, refusal.meaning⟩

end SyscallStream
