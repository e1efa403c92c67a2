import SyscallStream.Proofs.Grammar
import SyscallStream.Proofs.Refusals
import SyscallStream.Proofs.Spelling

/-! The log of a decoding. It tells of every finished call in order and ends with one event for the
verdict, whether the stream is accepted, refused while it is read, or refused at its end. -/

namespace SyscallStream

structure Carries (bytes : Bytes) (instructions : List Instruction) : Prop where
  spells : Spells bytes instructions
  plain : ∀ instruction ∈ instructions, instruction.Plain

theorem Carries.unique {bytes : Bytes} {instructions others : List Instruction}
    (first : Carries bytes instructions) (second : Carries bytes others) :
    instructions = others := by
  have reads {list : List Instruction} (carries : Carries bytes list) :
      ∃ spellings rest, spellings.map Spelling.instruction = list ∧
        Reading bytes spellings rest := by
    rcases carries.spells with ⟨wire, rest, split, wires⟩
    rcases exists_spellings wires carries.plain with ⟨spellings, own, valid, rfl⟩
    refine ⟨spellings, rest, own, ?_, valid⟩
    rw [split, List.append_assoc]
  rcases reads first with ⟨spellings, rest, rfl, reading⟩
  rcases reads second with ⟨spellings', rest', rfl, reading'⟩
  rw [← List.append_nil bytes] at reading'
  rw [(reading.unique reading').1]

/-- What the events of a log say about a verdict: which calls were finished, and what came last. -/
structure Chronicle (bytes : Bytes) (result : Except DecodeError Program) (finished : List Call)
    (final : Event) : Prop where
  accepted : ∀ program, result = .ok program → finished = program.calls ∧
    final = .decoded program.calls.length program.vars.length bytes.length
  /-- An offset is there unless the error was found at the end. -/
  refused : ∀ error, result = .error error →
    ∃ offset?, final = .rejected error offset? bytes.length ∧ (offset?.isSome ↔ ¬ error.AtEnd)
  atEnd : ∀ error, result = .error error → error.AtEnd →
    (∃ instructions, Carries bytes instructions) ∧ ∀ instructions, Carries bytes instructions →
      finished.length = instructions.countP Instruction.isCall
  /-- A bad argument belongs to the call behind the finished ones. -/
  badArg : ∀ call arg kind, result = .error (.badCallArg call arg kind) → call = finished.length

theorem Decoder.Refusal.not_atEnd {catalog : Catalog} {error : DecodeError} {s : State}
    (refusal : Refusal catalog error s) : ¬ error.AtEnd := by
  intro last
  have meaning := refusal.meaning
  cases error with
  | dangling copyin copyout => exact meaning
  | varsMismatch populated required => exact meaning
  | _ => exact last

theorem Decoder.Refusal.chronicle {catalog : Catalog} {error : DecodeError} {s : State}
    (refusal : Refusal catalog error s) (bytes : Bytes) :
    Chronicle bytes (.error error) s.calls.toList
      (.rejected error (some s.cursor.offset) bytes.length) := by
  constructor
  · exact nofun
  · rintro _ ⟨⟩
    exact ⟨_, rfl, iff_of_true rfl refusal.not_atEnd⟩
  · rintro _ ⟨⟩ last
    exact absurd last refusal.not_atEnd
  · rintro call arg kind ⟨⟩
    exact refusal.meaning.trans (Array.length_toList).symm

section Runs

variable {catalog : Catalog} {limits : Limits} {bytes : Bytes}

theorem decode_ne_too_large (small : bytes.length ≤ limits.maxBytes.toNat) (size : Nat)
    (limit : UInt64) : decode catalog limits bytes ≠ .error (.programTooLarge size limit) := by
  intro refused
  rcases refusal_of_decode small refused with last | ⟨s, refusal⟩
  · exact last
  · exact refusal.meaning

theorem run_of_instructions {s : State}
    (run : Decoder.instructions catalog (.initial limits bytes) = .ok () s) :
    ∃ instructions d, Carries bytes instructions ∧
      (State.initial limits bytes).AllowsAll catalog instructions ∧
      s = { ((State.initial limits bytes).takeAll catalog instructions).committed with
        cursor := d } := by
  rcases Decoder.wire_of_instructions run with ⟨list, wire, d, wires, passes, allows, rfl⟩
  refine ⟨list, d, ⟨⟨wire, d.rest, passes.1, wires⟩, ?_⟩, allows, rfl⟩
  intro instruction member
  rw [Instruction.plain_iff]
  intro word index args own
  exact (((allowsAll_initial_iff.mp allows).1 instruction member).call word index args own).1

theorem size_calls_committed {instructions : List Instruction}
    (legal : ∀ instruction ∈ instructions, instruction.Legal catalog limits.maxVars) :
    ((State.initial limits bytes).takeAll catalog instructions).committed.calls.size =
      instructions.countP Instruction.isCall := by
  have calls := (State.committed_eq_assembly
    ((State.initial limits bytes).takeAll catalog instructions)).1
  rw [assembly_run legal] at calls
  rw [← Array.length_toList, calls]
  exact (mirrors_assemble legal).length_calls

theorem carries_of_instructions {s : State}
    (run : Decoder.instructions catalog (.initial limits bytes) = .ok () s) :
    ∃ instructions, Carries bytes instructions ∧
      s.calls.size = instructions.countP Instruction.isCall := by
  rcases run_of_instructions run with ⟨list, d, carries, allows, rfl⟩
  exact ⟨list, carries, size_calls_committed (allowsAll_initial_iff.mp allows).1⟩

theorem chronicle_of_ok {s : State}
    (run : Decoder.instructions catalog (.initial limits bytes) = .ok () s) :
    Chronicle bytes (verdict (.ok () s)) s.calls.toList
      (match s.finish with
        | .ok program => .decoded program.calls.length program.vars.length bytes.length
        | .error error => .rejected error none bytes.length) := by
  rcases carries_of_instructions run with ⟨own, carries, count⟩
  change Chronicle bytes s.finish _ _
  cases finished : s.finish with
  | ok program =>
    rcases State.finish_eq_ok.mp finished with ⟨_, _, calls, _⟩
    constructor
    · rintro _ ⟨⟩
      exact ⟨calls.symm, rfl⟩
    · exact nofun
    · exact nofun
    · exact nofun
  | error error =>
    have last := State.atEnd_of_finish finished
    constructor
    · exact nofun
    · rintro _ ⟨⟩
      exact ⟨none, rfl, iff_of_false nofun (not_not_intro last)⟩
    · rintro _ ⟨⟩ _
      refine ⟨⟨own, carries⟩, fun instructions carries' => ?_⟩
      rw [← carries.unique carries', Array.length_toList, count]
    · rintro call arg kind ⟨⟩
      exact last.elim

theorem log_of_error (small : bytes.length ≤ limits.maxBytes.toNat) {error : DecodeError}
    {s : State} (run : Decoder.instructions catalog (.initial limits bytes) = .error error s) :
    (decodeWithLog catalog limits bytes).log = s.calls.toList.mapIdx Call.event ++
        [.rejected error (some s.cursor.offset) bytes.length] ∧
      Decoder.Refusal catalog error s := by
  have accounts := Decoder.instructions_accounts catalog _ (State.logged_initial limits bytes)
  rw [run] at accounts
  refine ⟨?_, accounts.2⟩
  rw [decodeWithLog, if_neg (by omega), run]
  change (s.log.push _).toList = _
  rw [Array.toList_push, accounts.1]

theorem log_of_ok (small : bytes.length ≤ limits.maxBytes.toNat) {s : State}
    (run : Decoder.instructions catalog (.initial limits bytes) = .ok () s) :
    (decodeWithLog catalog limits bytes).log = s.calls.toList.mapIdx Call.event ++
      [match s.finish with
        | .ok program => .decoded program.calls.length program.vars.length bytes.length
        | .error error => .rejected error none bytes.length] := by
  have accounts := Decoder.instructions_accounts catalog _ (State.logged_initial limits bytes)
  rw [run] at accounts
  rw [decodeWithLog, if_neg (by omega), run]
  cases finished : s.finish with
  | ok program =>
    simp only [finished, Array.toList_push]
    rw [accounts]
  | error error =>
    simp only [finished, Array.toList_push]
    rw [accounts]

end Runs

/-- The log tells exactly what happened. A stream that is too large leaves none. Otherwise one event
for each finished call comes first, numbered from zero, and one event with the verdict comes
last. -/
theorem log_of_decode (catalog : Catalog) (limits : Limits) (bytes : Bytes) :
    (∀ size limit, decode catalog limits bytes = .error (.programTooLarge size limit) →
      (decodeWithLog catalog limits bytes).log = []) ∧
    ((∀ size limit, decode catalog limits bytes ≠ .error (.programTooLarge size limit)) →
      ∃ finished final,
        (decodeWithLog catalog limits bytes).log = finished.mapIdx Call.event ++ [final] ∧
        Chronicle bytes (decode catalog limits bytes) finished final) := by
  by_cases small : bytes.length ≤ limits.maxBytes.toNat
  · constructor
    · intro size limit refused
      exact absurd refused (decode_ne_too_large small size limit)
    · intro _
      rw [decode_eq_verdict small]
      cases run : Decoder.instructions catalog (.initial limits bytes) with
      | error error s =>
        rcases log_of_error small run with ⟨log, refusal⟩
        exact ⟨_, _, log, refusal.chronicle bytes⟩
      | ok done s => exact ⟨_, _, log_of_ok small run, chronicle_of_ok run⟩
  · constructor
    · intro size limit _
      rw [decodeWithLog, if_pos (by omega)]
    · intro read
      exact absurd (decode_too_large (by omega)) (read _ _)

def misplacedData : Bytes := encodeWords [0, noResult, 0, 0, noResult, 1, 2, 0]

def trailingCopyin : Bytes := encodeWords [0, noResult, 0, copyinWord, 16, 0, 8, 5, stopWord]

/-- The sample under a limit that it exceeds and under the usual ones, a stream that breaks off in
its second call, and one that is refused at its end. -/
theorem log_of_decode_samples :
    (decode sampleCatalog ⟨8, 0⟩ scrambledStream = .error (.programTooLarge 179 8) ∧
      (decodeWithLog sampleCatalog ⟨8, 0⟩ scrambledStream).log = []) ∧
    (decode sampleCatalog {} scrambledStream = .ok sampleProgram ∧
      (decodeWithLog sampleCatalog {} scrambledStream).log =
        [.committed 0 "openat" 2 1 1, .decoded 1 2 179]) ∧
    (decode sampleCatalog {} misplacedData = .error (.badCallArg 1 0 .data) ∧
      ∃ (finished : List Call) (offset : Nat),
        (decodeWithLog sampleCatalog {} misplacedData).log =
          finished.mapIdx Call.event ++ [.rejected (.badCallArg 1 0 .data) (some offset) 64] ∧
        finished.length = 1) ∧
    (decode sampleCatalog {} trailingCopyin = .error (.dangling 1 0) ∧
      ∃ (finished : List Call) (instructions : List Instruction),
        (decodeWithLog sampleCatalog {} trailingCopyin).log =
          finished.mapIdx Call.event ++ [.rejected (.dangling 1 0) none 72] ∧
        Carries trailingCopyin instructions ∧
        finished.length = instructions.countP Instruction.isCall) := by
  have large : decode sampleCatalog ⟨8, 0⟩ scrambledStream = .error (.programTooLarge 179 8) := by
    decide +kernel
  have accepted : decode sampleCatalog {} scrambledStream = .ok sampleProgram := by
    decide +kernel
  have misplaced : decode sampleCatalog {} misplacedData = .error (.badCallArg 1 0 .data) := by
    decide +kernel
  have trailing : decode sampleCatalog {} trailingCopyin = .error (.dangling 1 0) := by
    decide +kernel
  refine ⟨⟨large, ?_⟩, ⟨accepted, ?_⟩, ⟨misplaced, ?_⟩, trailing, ?_⟩
  · exact (log_of_decode sampleCatalog ⟨8, 0⟩ scrambledStream).1 _ _ large
  · rcases (log_of_decode sampleCatalog {} scrambledStream).2 (by rw [accepted]; exact nofun) with
      ⟨finished, final, log, chronicle⟩
    rcases chronicle.accepted _ accepted with ⟨rfl, rfl⟩
    rw [log]
    decide +kernel
  · rcases (log_of_decode sampleCatalog {} misplacedData).2 (by rw [misplaced]; exact nofun) with
      ⟨finished, final, log, chronicle⟩
    rcases chronicle.refused _ misplaced with ⟨offset?, rfl, some⟩
    rcases Option.isSome_iff_exists.mp (some.mpr id) with ⟨offset, rfl⟩
    exact ⟨finished, offset, log, (chronicle.badArg _ _ _ misplaced).symm⟩
  · rcases (log_of_decode sampleCatalog {} trailingCopyin).2 (by rw [trailing]; exact nofun) with
      ⟨finished, final, log, chronicle⟩
    rcases chronicle.refused _ trailing with ⟨offset?, rfl, some⟩
    rcases chronicle.atEnd _ trailing trivial with ⟨⟨instructions, carries⟩, count⟩
    have none : offset? = none := by
      rw [← Option.not_isSome_iff_eq_none, some]
      exact not_not_intro trivial
    rw [none] at log
    exact ⟨finished, instructions, log, carries, count instructions carries⟩

end SyscallStream
