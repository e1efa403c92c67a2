import SyscallStream.Proofs.Laws
import SyscallStream.Proofs.RoundTrip

/-! Bytes behind a stream. A decoding that comes to a verdict without running out of bytes comes to
the same verdict on every longer stream, so a stream that is cut off before its stop word runs
out. -/

namespace SyscallStream

def RanOut {σ α : Type} : EStateM.Result DecodeError σ α → Prop
  | .error error _ => error.IsOverflow
  | .ok .. => False

def changed {σ α : Type} (change : σ → σ) :
    EStateM.Result DecodeError σ α → EStateM.Result DecodeError σ α
  | .ok a s => .ok a (change s)
  | .error error s => .error error (change s)

/-- A step that notices nothing of a change of the state, unless it runs out of bytes. -/
def Ignores {σ α : Type} (change : σ → σ) (step : EStateM DecodeError σ α) : Prop :=
  ∀ s, RanOut (step s) ∨ step (change s) = changed change (step s)

namespace Ignores

variable {σ α β : Type} {change : σ → σ} {step : EStateM DecodeError σ α} {s t : σ}

theorem of_ok {a : α} (ignores : Ignores change step) (ran : step s = .ok a t) :
    step (change s) = .ok a (change t) := by
  have outcome := ignores s
  rw [ran] at outcome
  exact outcome.resolve_left id

theorem of_error {error : DecodeError} (ignores : Ignores change step)
    (ran : step s = .error error t) :
    error.IsOverflow ∨ step (change s) = .error error (change t) := by
  have outcome := ignores s
  rw [ran] at outcome
  exact outcome

theorem pure (a : α) : Ignores change (Pure.pure a : EStateM DecodeError σ α) :=
  fun _ => .inr rfl

theorem throw (error : DecodeError) :
    Ignores change (MonadExcept.throw error : EStateM DecodeError σ α) :=
  fun _ => .inr rfl

theorem modify {update : σ → σ} (commutes : ∀ s, update (change s) = change (update s)) :
    Ignores change (modify update : EStateM DecodeError σ Unit) := by
  intro s
  apply Or.inr
  change EStateM.Result.ok () (update (change s)) = .ok () (change (update s))
  rw [commutes]

theorem bind {next : α → EStateM DecodeError σ β} (first : Ignores change step)
    (second : ∀ a, Ignores change (next a)) : Ignores change (step >>= next) := by
  intro s
  change RanOut (EStateM.bind step next s) ∨
    EStateM.bind step next (change s) = changed change (EStateM.bind step next s)
  unfold EStateM.bind
  cases ran : step s with
  | ok a t =>
    rw [first.of_ok ran]
    exact second a t
  | error error t =>
    rcases first.of_error ran with out | same
    · exact .inl out
    · rw [same]
      exact .inr rfl

end Ignores

namespace Cursor

def extend (more : Bytes) (cursor : Cursor) : Cursor where
  rest := cursor.rest ++ more
  offset := cursor.offset
  remaining := cursor.remaining + more.length
  remaining_eq := by rw [List.length_append, cursor.remaining_eq]

theorem ofBytes_append (bytes more : Bytes) :
    Cursor.ofBytes (bytes ++ more) = (Cursor.ofBytes bytes).extend more :=
  Cursor.ext rfl rfl

theorem extend_advance (more : Bytes) {cursor : Cursor} {count : Nat}
    (enough : count ≤ cursor.remaining) :
    (cursor.extend more).advance count = (cursor.advance count).extend more := by
  rw [cursor.remaining_eq] at enough
  exact Cursor.ext (List.drop_append_of_le_length enough) rfl

theorem take_extend (more : Bytes) {cursor : Cursor} {count : Nat}
    (enough : count ≤ cursor.remaining) :
    (cursor.extend more).rest.take count = cursor.rest.take count := by
  rw [cursor.remaining_eq] at enough
  exact List.take_append_of_le_length enough

end Cursor

section Readers

variable {more : Bytes}

theorem readWord_ignores : Ignores (Cursor.extend more) readWord := by
  intro c
  unfold readWord
  by_cases enough : wordSize ≤ c.remaining
  · have longer : wordSize ≤ (c.extend more).remaining := Nat.le_add_right_of_le enough
    rw [if_pos enough, if_pos longer, Cursor.take_extend more enough,
      Cursor.extend_advance more enough]
    exact .inr rfl
  · rw [if_neg enough]
    exact .inl trivial

theorem readBlob_ignores (size : UInt64) : Ignores (Cursor.extend more) (readBlob size) := by
  intro c
  unfold readBlob
  cases rounded : paddedSize? size with
  | none => exact .inl trivial
  | some padded =>
    have value := (paddedSize?_eq_some.mp rounded).2
    simp only
    by_cases enough : padded.toNat ≤ c.remaining
    · have longer : padded.toNat ≤ (c.extend more).remaining := Nat.le_add_right_of_le enough
      have inside : size.toNat ≤ c.remaining := by
        have le := le_roundUp size.toNat
        omega
      rw [if_pos enough, if_pos longer, Cursor.take_extend more inside,
        Cursor.extend_advance more enough]
      exact .inr rfl
    · rw [if_neg enough]
      exact .inl trivial

end Readers

namespace State

def extend (more : Bytes) (s : State) : State := { s with cursor := s.cursor.extend more }

theorem initial_append (limits : Limits) (bytes more : Bytes) :
    State.initial limits (bytes ++ more) = (State.initial limits bytes).extend more := by
  rw [State.initial, Cursor.ofBytes_append]
  rfl

theorem finish_extend (more : Bytes) (s : State) : (s.extend more).finish = s.finish := rfl

end State

namespace Decoder

variable {more : Bytes}

theorem onCursor_ignores {α : Type} {reader : Reader α}
    (ignores : Ignores (Cursor.extend more) reader) :
    Ignores (State.extend more) (onCursor reader) := by
  intro s
  unfold onCursor
  cases ran : reader s.cursor with
  | ok a d =>
    have same := ignores.of_ok ran
    apply Or.inr
    simp only [State.extend, same, changed]
  | error error d =>
    rcases ignores.of_error ran with out | same
    · exact .inl out
    · apply Or.inr
      simp only [State.extend, same, changed]

theorem assign_ignores (index value : UInt64) :
    Ignores (State.extend more) (assign index value) := by
  intro s
  apply Or.inr
  by_cases below : s.vars.admits index
  · simp only [assign, State.extend, below, if_true, changed]
  · simp only [assign, State.extend, below, changed]
    rfl

theorem commit_ignores : Ignores (State.extend more) commit := by
  intro s
  apply Or.inr
  unfold commit State.extend
  cases s.pending.syscall? with
  | none => rfl
  | some syscall =>
    simp only
    cases s.vars.referenceAll s.pending.references <;> rfl

theorem lookup_ignores (catalog : Catalog) (word : UInt64) :
    Ignores (State.extend more) (lookup catalog word) := by
  unfold lookup
  cases catalog.entry? word with
  | none => exact .throw _
  | some syscall =>
    by_cases own : syscall.id = word
    · simp only [own, if_true]
      exact .pure _
    · simp only [own, if_false]
      exact .throw _

theorem obeyPlainly_ignores (catalog : Catalog) :
    (steps catalog).ObeyPlainly (Ignores (State.extend more)) where
  pure a := .pure a
  bind first second := first.bind second
  word := onCursor_ignores readWord_ignores
  blob _ := onCursor_ignores (readBlob_ignores _)
  -- The room that is reserved depends on what is left, but the chunks do not.
  room _ _ _ later := later
  refuse _ := .throw _
  lookup := lookup_ignores catalog
  assign := assign_ignores
  commit := commit_ignores
  start _ _ := .modify fun _ => rfl
  pushArg _ := .modify fun _ => rfl
  pushCopyin _ := .modify fun _ => rfl
  pushCopyout _ := .modify fun _ => rfl
  finished _ := .inr rfl

theorem instruction_ignores (catalog : Catalog) :
    Ignores (State.extend more) (instruction catalog) := by
  rw [← instruction_steps]
  exact (obeyPlainly_ignores catalog).obey.instruction

theorem instructions_ignores (catalog : Catalog) :
    Ignores (State.extend more) (instructions catalog) := by
  intro s
  have step : Ignores (State.extend more) (instruction catalog) := instruction_ignores catalog
  induction s using instructions.induct catalog with
  | case1 s error t ran =>
    rw [instructions_of_error ran]
    rcases step.of_error ran with out | same
    · exact .inl out
    · exact .inr (instructions_of_error same)
  | case2 s t ran =>
    rw [instructions_of_false ran]
    exact .inr (instructions_of_false (step.of_ok ran))
  | case3 s t ran shorter ih =>
    rw [instructions_of_true ran, instructions_of_true (step.of_ok ran)]
    exact ih

end Decoder

def verdict : EStateM.Result DecodeError State Unit → Except DecodeError Program
  | .error error _ => .error error
  | .ok _ s => s.finish

section Verdicts

variable {catalog : Catalog} {limits : Limits} {bytes more : Bytes}

theorem decode_eq_verdict (small : bytes.length ≤ limits.maxBytes.toNat) :
    decode catalog limits bytes =
      verdict (Decoder.instructions catalog (.initial limits bytes)) := by
  unfold decode decodeWithLog
  rw [if_neg (Nat.not_lt.mpr small)]
  cases Decoder.instructions catalog (.initial limits bytes) with
  | error error s => rfl
  | ok done s => cases finished : s.finish <;> simp only [verdict, finished]

theorem decode_too_large (large : limits.maxBytes.toNat < bytes.length) :
    decode catalog limits bytes =
      .error (.programTooLarge bytes.length limits.maxBytes) := by
  rw [decode, decodeWithLog, if_pos large]

theorem verdict_changed (result : EStateM.Result DecodeError State Unit) :
    verdict (changed (State.extend more) result) = verdict result := by
  cases result with
  | error error s => rfl
  | ok done s => exact s.finish_extend more

theorem verdict_of_ranOut {result : EStateM.Result DecodeError State Unit}
    (out : RanOut result) :
    ∃ offset needed remaining, verdict result = .error (.overflow offset needed remaining) := by
  rcases result with _ | ⟨error, s⟩
  · cases out
  · cases error with
    | overflow offset needed remaining => exact ⟨offset, needed, remaining, rfl⟩
    | _ => cases out

/-- A stream either runs out of bytes or has its verdict, whatever follows. -/
theorem decode_extended (catalog : Catalog)
    (fits : (bytes ++ more).length ≤ limits.maxBytes.toNat) :
    (∃ offset needed remaining,
      decode catalog limits bytes = .error (.overflow offset needed remaining)) ∨
    decode catalog limits (bytes ++ more) = decode catalog limits bytes := by
  have small : bytes.length ≤ limits.maxBytes.toNat := by
    rw [List.length_append] at fits
    omega
  rw [decode_eq_verdict fits, decode_eq_verdict small, State.initial_append]
  rcases Decoder.instructions_ignores catalog (State.initial limits bytes) with out | same
  · exact .inl (verdict_of_ranOut out)
  · rw [same]
    exact .inr (verdict_changed _)

end Verdicts

/-- Every verdict but an overflow stands, whatever follows the bytes that it was reached on. -/
theorem decode_append_eq (catalog : Catalog) (limits : Limits) (bytes more : Bytes)
    (fits : (bytes ++ more).length ≤ limits.maxBytes.toNat)
    (decided : ∀ offset needed remaining,
      decode catalog limits bytes ≠ .error (.overflow offset needed remaining)) :
    decode catalog limits (bytes ++ more) = decode catalog limits bytes := by
  apply (decode_extended catalog fits).resolve_left
  rintro ⟨offset, needed, remaining, overflow⟩
  exact decided offset needed remaining overflow

theorem decode_append_eq_samples :
    decode sampleCatalog {} (sampleProgram.encode ++ [9, 9, 9]) = .ok sampleProgram ∧
      decode sampleCatalog {} (encodeWords [7] ++ scrambledStream) =
        .error (.badSyscall 7 1) := by
  have accepted : decode sampleCatalog {} sampleProgram.encode = .ok sampleProgram := by
    decide +kernel
  have refused : decode sampleCatalog {} (encodeWords [7]) = .error (.badSyscall 7 1) := by
    decide +kernel
  constructor
  · rw [← accepted]
    apply decode_append_eq
    · decide +kernel
    · rw [accepted]
      exact nofun
  · rw [← refused]
    apply decode_append_eq
    · decide +kernel
    · rw [refused]
      exact nofun

/-- An accepted stream that is cut off before the end of its stop word runs out of bytes, wherever
the cut is. -/
theorem decode_take_overflow (catalog : Catalog) (limits : Limits) (bytes : Bytes)
    (program : Program) (accepted : decode catalog limits bytes = .ok program) (size : Nat)
    (cut : size < program.encode.length) :
    ∃ offset needed remaining,
      decode catalog limits (bytes.take size) = .error (.overflow offset needed remaining) := by
  have whole : bytes.take size ++ bytes.drop size = bytes := List.take_append_drop size bytes
  have small := (decode_eq_ok_iff_instructions.mp accepted).1
  have fits : (bytes.take size ++ bytes.drop size).length ≤ limits.maxBytes.toNat := by
    rw [whole]
    exact small
  rcases decode_extended catalog fits with overflow | same
  · exact overflow
  · -- Otherwise the cut stream would be accepted as the same program and be too short for it.
    rw [whole, accepted] at same
    have long := length_encode_le same.symm
    rw [List.length_take] at long
    omega

theorem decode_take_overflow_scrambled :
    decode sampleCatalog {} scrambledStream = .ok sampleProgram ∧
      101 < sampleProgram.encode.length ∧ ∃ offset needed remaining,
        decode sampleCatalog {} (scrambledStream.take 101) =
          .error (.overflow offset needed remaining) := by
  have accepted : decode sampleCatalog {} scrambledStream = .ok sampleProgram := by
    decide +kernel
  have cut : 101 < sampleProgram.encode.length := by decide +kernel
  exact ⟨accepted, cut, decode_take_overflow sampleCatalog {} _ _ accepted 101 cut⟩

end SyscallStream
