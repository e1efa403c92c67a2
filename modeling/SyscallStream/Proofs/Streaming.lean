import SyscallStream.Proofs.Refusals

/-! Streams that arrive in pieces. An overflow tells how many bytes a read needs, and how many there
are. With fewer bytes than that behind the stream the same read runs out again, and with enough of
them the decoding gets past it. -/

namespace SyscallStream

def Honest (error : DecodeError) (s : State) : Prop :=
  ∀ offset needed remaining, error = .overflow offset needed remaining → offset = s.cursor.offset

structure Streams {α : Type} (more : Bytes) (step : Decoder α) : Prop where
  ignores : Ignores (State.extend more) step
  forward (bound : Nat) : Guards (fun s => bound ≤ s.cursor.offset) Honest step
  /-- If it ran out and too few bytes follow, it runs out in the same place. -/
  short {s t : State} {offset needed remaining : Nat}
    (ran : step s = .error (.overflow offset needed remaining) t)
    (fewer : remaining + more.length < needed) :
    step (s.extend more) =
      .error (.overflow offset needed (remaining + more.length)) (t.extend more)
  /-- If it ran out and enough bytes follow, it gets past the place. -/
  onward {s t : State} {offset needed remaining : Nat}
    (ran : step s = .error (.overflow offset needed remaining) t)
    (enough : needed ≤ remaining + more.length) :
    Guarded (fun s => offset + needed ≤ s.cursor.offset) Honest (step (s.extend more))

namespace Streams

variable {α β : Type} {more : Bytes} {step : Decoder α} {next : α → Decoder β}

theorem of_still (ignores : Ignores (State.extend more) step)
    (still : ∀ s, Guarded (fun t => t.cursor = s.cursor) (fun error _ => ¬ error.IsOverflow)
      (step s)) : Streams more step := by
  have never {s t : State} {offset needed remaining : Nat} :
      step s ≠ .error (.overflow offset needed remaining) t := by
    intro ran
    have outcome := still s
    rw [ran] at outcome
    exact outcome.2 trivial
  refine ⟨ignores, ?_, fun ran => absurd ran never, fun ran => absurd ran never⟩
  intro bound s held
  apply (still s).imp
  · intro t same
    rw [same]
    exact held
  · rintro error t other _ _ _ rfl
    exact absurd trivial other

theorem pure (a : α) : Streams more (Pure.pure a : Decoder α) :=
  .of_still (.pure a) fun _ => rfl

theorem throw {error : DecodeError} (other : ¬ error.IsOverflow) :
    Streams more (MonadExcept.throw error : Decoder α) :=
  .of_still (.throw error) fun _ => ⟨rfl, other⟩

theorem bind (first : Streams more step) (second : ∀ a, Streams more (next a)) :
    Streams more (step >>= next) where
  ignores := first.ignores.bind fun a => (second a).ignores
  forward bound := (first.forward bound).bind fun a => (second a).forward bound
  short := by
    intro s t offset needed remaining ran fewer
    rcases bind_eq_error.mp ran with failed | ⟨a, u, passed, failed⟩
    · exact bind_eq_error.mpr (.inl (first.short failed fewer))
    · have same := first.ignores.of_ok passed
      exact bind_eq_error.mpr (.inr ⟨a, _, same, (second a).short failed fewer⟩)
  onward := by
    intro s t offset needed remaining ran enough
    rcases bind_eq_error.mp ran with failed | ⟨a, u, passed, failed⟩
    · -- What follows the step that ran out never goes back.
      apply Guards.andThen (first.onward failed enough)
      intro b v _ held
      exact (second b).forward _ v held
    · have same := first.ignores.of_ok passed
      change Guarded _ _ (EStateM.bind step next (s.extend more))
      rw [EStateM.bind, same]
      exact (second a).onward failed enough

end Streams

section Reads

variable {α : Type} {size : Nat} {reader : Reader α} {s t : State} (demands : Demands size reader)
include demands

theorem Demands.onCursor_ok (enough : size ≤ s.cursor.remaining) :
    ∃ a, Decoder.onCursor reader s = .ok a { s with cursor := s.cursor.advance size } := by
  rcases demands s.cursor with ⟨_, a, read⟩ | ⟨short, _⟩
  · exact ⟨a, by rw [Decoder.onCursor, read]⟩
  · omega

theorem Demands.onCursor_error (short : s.cursor.remaining < size) :
    Decoder.onCursor reader s = .error (s.cursor.overflow size) s := by
  rcases demands s.cursor with ⟨enough, _⟩ | ⟨_, read⟩
  · omega
  · rw [Decoder.onCursor, read]

theorem Demands.of_overflow {offset needed remaining : Nat}
    (ran : Decoder.onCursor reader s = .error (.overflow offset needed remaining) t) :
    offset = s.cursor.offset ∧ needed = size ∧ remaining = s.cursor.remaining ∧ t = s := by
  rcases Nat.lt_or_ge s.cursor.remaining size with short | enough
  · rw [demands.onCursor_error short] at ran
    cases ran
    exact ⟨rfl, rfl, rfl, rfl⟩
  · rcases demands.onCursor_ok enough with ⟨a, read⟩
    rw [read] at ran
    cases ran

theorem Demands.streams {more : Bytes} (ignores : Ignores (Cursor.extend more) reader) :
    Streams more (Decoder.onCursor reader) where
  ignores := Decoder.onCursor_ignores ignores
  forward := by
    intro bound s held
    rcases Nat.lt_or_ge s.cursor.remaining size with short | enough
    · rw [demands.onCursor_error short]
      refine ⟨held, ?_⟩
      rintro _ _ _ ⟨⟩
      rfl
    · rcases demands.onCursor_ok enough with ⟨a, read⟩
      rw [read]
      exact Nat.le_add_right_of_le held
  short := by
    intro s t offset needed remaining ran fewer
    rcases demands.of_overflow ran with ⟨rfl, rfl, rfl, rfl⟩
    exact demands.onCursor_error fewer
  onward := by
    intro s t offset needed remaining ran enough
    rcases demands.of_overflow ran with ⟨rfl, rfl, rfl, rfl⟩
    rcases demands.onCursor_ok (s := t.extend more) enough with ⟨a, read⟩
    rw [read]
    exact Nat.le_refl _

end Reads

namespace Decoder

variable {more : Bytes}

theorem Rests.streams {α : Type} {step : Decoder α} (rests : Rests step)
    (ignores : Ignores (State.extend more) step) : Streams more step := by
  apply Streams.of_still ignores
  intro s
  apply (rests s).imp (fun _ => id)
  intro error _ off
  cases error with
  | overflow offset needed remaining => exact off.elim
  | _ => exact id

theorem obeyPlainly_streams (catalog : Catalog) :
    (steps catalog).ObeyPlainly (Streams more) where
  pure := .pure
  bind first second := first.bind second
  word := readWord_demands.streams readWord_ignores
  blob word :=
    (readBlob_demands (DataArg.toNat_sizeOfWord_add_lt word)).streams (readBlob_ignores _)
  room _ _ _ later := later
  refuse := .throw
  lookup word := (lookup_rests catalog word).streams (lookup_ignores catalog word)
  assign index value := (assign_rests index value).streams (assign_ignores index value)
  commit := commit_rests.streams commit_ignores
  start _ _ := .of_still (.modify fun _ => rfl) fun _ => rfl
  pushArg _ := .of_still (.modify fun _ => rfl) fun _ => rfl
  pushCopyin _ := .of_still (.modify fun _ => rfl) fun _ => rfl
  pushCopyout _ := .of_still (.modify fun _ => rfl) fun _ => rfl
  finished := .of_still (fun _ => .inr rfl) fun _ => rfl

theorem instruction_streams (catalog : Catalog) : Streams more (instruction catalog) := by
  rw [← instruction_steps]
  exact (obeyPlainly_streams catalog).obey.instruction

section Runs

variable (more) {catalog : Catalog} {s t : State} {offset needed remaining : Nat}

theorem instructions_short
    (run : instructions catalog s = .error (.overflow offset needed remaining) t)
    (fewer : remaining + more.length < needed) :
    instructions catalog (s.extend more) =
      .error (.overflow offset needed (remaining + more.length)) (t.extend more) := by
  have step : Streams more (instruction catalog) := instruction_streams catalog
  induction s using instructions.induct catalog with
  | case1 s error u ran =>
    rw [instructions_of_error ran] at run
    cases run
    exact instructions_of_error (step.short ran fewer)
  | case2 s u ran =>
    rw [instructions_of_false ran] at run
    cases run
  | case3 s u ran shorter ih =>
    rw [instructions_of_true ran] at run
    rw [instructions_of_true (step.ignores.of_ok ran)]
    exact ih run

theorem instructions_onward
    (run : instructions catalog s = .error (.overflow offset needed remaining) t)
    (enough : needed ≤ remaining + more.length) :
    Guarded (fun s => offset + needed ≤ s.cursor.offset) Honest
      (instructions catalog (s.extend more)) := by
  have step : Streams more (instruction catalog) := instruction_streams catalog
  induction s using instructions.induct catalog with
  | case1 s error u ran =>
    rw [instructions_of_error ran] at run
    cases run
    -- The instruction that ran out gets past the place now, and so does all that follows it.
    have past := step.onward ran enough
    cases longer : instruction catalog (s.extend more) with
    | error error v =>
      rw [longer] at past
      rw [instructions_of_error longer]
      exact past
    | ok again v =>
      rw [longer] at past
      cases again with
      | false =>
        rw [instructions_of_false longer]
        exact past
      | true =>
        rw [instructions_of_true longer]
        exact guards_instructions (step.forward _) v past
  | case2 s u ran =>
    rw [instructions_of_false ran] at run
    cases run
  | case3 s u ran shorter ih =>
    rw [instructions_of_true ran] at run
    rw [instructions_of_true (step.ignores.of_ok ran)]
    exact ih run

end Runs

end Decoder

theorem Decoder.Refusal.lt_needed {catalog : Catalog} {s : State} {offset needed remaining : Nat}
    (refusal : Refusal catalog (.overflow offset needed remaining) s) : remaining < needed := by
  cases refusal with
  | stuck stuck =>
    cases stuck with
    | short short => exact short

theorem overflow_of_decode {catalog : Catalog} {limits : Limits} {bytes : Bytes}
    {offset needed remaining : Nat} (small : bytes.length ≤ limits.maxBytes.toNat)
    (refused : decode catalog limits bytes = .error (.overflow offset needed remaining)) :
    ∃ s, Decoder.instructions catalog (.initial limits bytes) =
      .error (.overflow offset needed remaining) s := by
  rw [decode_eq_verdict small] at refused
  cases run : Decoder.instructions catalog (.initial limits bytes) with
  | error error s =>
    rw [run] at refused
    cases refused
    exact ⟨s, rfl⟩
  | ok done s =>
    rw [run] at refused
    exact (State.atEnd_of_finish refused).elim

/-- An overflow tells exactly how many bytes are missing. As long as fewer follow, the same read
runs out again, with what has arrived counted. Once they are there, the decoding may run out again
only behind that read. -/
theorem decode_append_overflow (catalog : Catalog) (limits : Limits) (bytes more : Bytes)
    (offset needed remaining : Nat)
    (refused : decode catalog limits bytes = .error (.overflow offset needed remaining))
    (fits : (bytes ++ more).length ≤ limits.maxBytes.toNat) :
    remaining < needed ∧
    (more.length < needed - remaining →
      decode catalog limits (bytes ++ more) =
        .error (.overflow offset needed (remaining + more.length))) ∧
    (needed - remaining ≤ more.length → ∀ offset' needed' remaining',
      decode catalog limits (bytes ++ more) = .error (.overflow offset' needed' remaining') →
        offset + needed ≤ offset') := by
  have small : bytes.length ≤ limits.maxBytes.toNat := by
    rw [List.length_append] at fits
    omega
  rcases overflow_of_decode small refused with ⟨s, run⟩
  refine ⟨?_, ?_, ?_⟩
  · have accounts := Decoder.instructions_accounts catalog _ (State.logged_initial limits bytes)
    rw [run] at accounts
    exact accounts.2.lt_needed
  · intro fewer
    have again := Decoder.instructions_short more run (by omega)
    rw [decode_eq_verdict fits, State.initial_append, again]
    rfl
  · intro enough offset' needed' remaining' refused'
    rcases overflow_of_decode fits refused' with ⟨t, run'⟩
    rw [State.initial_append] at run'
    have past := Decoder.instructions_onward more run (by omega)
    rw [run'] at past
    rcases past with ⟨beyond, honest⟩
    rw [honest _ _ _ rfl]
    exact beyond

def cutData : Bytes := encodeWords [copyinWord, 16, 2, 11] ++ [1, 2, 3]

/-- Four more bytes do not complete the data. Fourteen do, and the next word is missing then. -/
theorem decode_append_overflow_cutData :
    decode sampleCatalog {} cutData = .error (.overflow 32 16 3) ∧
      decode sampleCatalog {} (cutData ++ [4, 5, 6, 7]) = .error (.overflow 32 16 7) ∧
      decode sampleCatalog {} (cutData ++ List.replicate 14 0) = .error (.overflow 48 8 1) ∧
      32 + 16 ≤ 48 := by
  have cut : decode sampleCatalog {} cutData = .error (.overflow 32 16 3) := by decide +kernel
  have next : decode sampleCatalog {} (cutData ++ List.replicate 14 0) =
      .error (.overflow 48 8 1) := by
    decide +kernel
  refine ⟨cut, ?_, next, ?_⟩
  · exact (decode_append_overflow _ {} _ [4, 5, 6, 7] _ _ _ cut (by decide +kernel)).2.1
      (by decide)
  · exact (decode_append_overflow _ {} _ _ _ _ _ cut (by decide +kernel)).2.2 (by decide) _ _ _ next

end SyscallStream
