import Mathlib.Data.List.TakeWhile
import SyscallStream.Proofs.EventLog

/-! The verdict at the stop word. Once every instruction is read, what is left over for a call that
never comes decides first, and then whether the result arguments reach every variable. -/

namespace SyscallStream

def Instruction.isCopyin : Instruction → Bool
  | .copyin _ => true
  | _ => false

/-- The instructions that no call takes: all of them if there is no call, and otherwise everything
from the first copyin behind the last call on. -/
def danglingPart (instructions : List Instruction) : List Instruction :=
  if instructions.any Instruction.isCall then
    (afterLastCall instructions).dropWhile (!·.isCopyin)
  else instructions

def populated (instructions : List Instruction) : Nat :=
  tableSize ((instructions.flatMap Instruction.writes).map Prod.fst)

def required (instructions : List Instruction) : Nat :=
  tableSize (instructions.flatMap Instruction.references)

/-- Every instruction up to the stop word is read and every call before it is finished. -/
def ReachesStop (catalog : Catalog) (limits : Limits) (bytes : Bytes) : Prop :=
  bytes.length ≤ limits.maxBytes.toNat ∧
    ∃ s, Decoder.instructions catalog (.initial limits bytes) = .ok () s

section Dangling

variable {before instructions : List Instruction}

theorem any_isCall_iff : instructions.any Instruction.isCall = true ↔
    ∃ instruction ∈ instructions, instruction.isCall = true :=
  List.any_eq_true

theorem danglingPart_append_call (before : List Instruction) (word index : UInt64)
    (args : List Arg) : danglingPart (before ++ [.call word index args]) = [] := by
  have call : (before ++ [Instruction.call word index args]).any Instruction.isCall = true :=
    any_isCall_iff.mpr ⟨_, List.mem_concat_self, rfl⟩
  rw [danglingPart, if_pos call, afterLastCall_append_singleton]
  rfl

theorem danglingPart_eq_nil_iff :
    danglingPart instructions = [] ↔ callOpen instructions = true ∨ instructions = [] := by
  unfold danglingPart
  by_cases call : instructions.any Instruction.isCall = true
  · have some := any_isCall_iff.mp call
    have filled : instructions ≠ [] := by
      rintro rfl
      cases call
    rw [if_pos call, or_iff_left filled, callOpen_iff, and_iff_right some,
      List.dropWhile_eq_nil_iff]
    constructor
    · intro plain input member
      exact absurd (plain _ member) Bool.false_ne_true
    · intro none instruction member
      cases instruction with
      | copyin input => exact absurd member (none input)
      | copyout output => rfl
      | call word index args => rfl
  · have shut : ¬ callOpen instructions = true := fun opened =>
      call (any_isCall_iff.mpr (callOpen_iff.mp opened).1)
    rw [if_neg call, or_iff_right shut]

/-- A copyin dangles until a call comes. A copyout does too, unless the call before takes it. -/
theorem danglingPart_append_transfer (before : List Instruction) {instruction : Instruction}
    (transfer : instruction.isCall = false) :
    danglingPart (before ++ [instruction]) =
      danglingPart before ++
        if instruction.isCopyout && callOpen before then [] else [instruction] := by
  have calls : (before ++ [instruction]).any Instruction.isCall =
      before.any Instruction.isCall := by simp [transfer]
  by_cases call : before.any Instruction.isCall = true
  · have part : danglingPart before = (afterLastCall before).dropWhile (!·.isCopyin) :=
      if_pos call
    have whole : danglingPart (before ++ [instruction]) =
        (afterLastCall before ++ [instruction]).dropWhile (!·.isCopyin) := by
      rw [danglingPart, calls, if_pos call, afterLastCall_append_singleton, transfer]
      rfl
    rw [whole, List.dropWhile_append, ← part]
    by_cases opened : callOpen before = true
    · rw [danglingPart_eq_nil_iff.mpr (.inl opened), opened, Bool.and_true]
      cases instruction with
      | copyin input => rfl
      | copyout output => rfl
      | call word index args => cases transfer
    · have some : danglingPart before ≠ [] := by
        rw [Ne, danglingPart_eq_nil_iff]
        rintro (open? | rfl)
        · exact opened open?
        · cases call
      rw [if_neg (mt List.isEmpty_iff.mp some), eq_false_of_ne_true opened, Bool.and_false]
      rfl
  · have shut : callOpen before = false := eq_false_of_ne_true fun opened =>
      call (any_isCall_iff.mpr (callOpen_iff.mp opened).1)
    rw [danglingPart, calls, if_neg call, danglingPart, if_neg call, shut, Bool.and_false]
    rfl

theorem isSome_copyin? (instruction : Instruction) :
    instruction.copyin?.isSome = instruction.isCopyin := by
  cases instruction <;> rfl

theorem isSome_copyout? (instruction : Instruction) :
    instruction.copyout?.isSome = instruction.isCopyout := by
  cases instruction <;> rfl

theorem waiting_assemble {catalog : Catalog} {limit : UInt64}
    (legal : ∀ instruction ∈ instructions, instruction.Legal catalog limit) :
    (assemble catalog instructions).copyin =
        (danglingPart instructions).filterMap Instruction.copyin? ∧
      (assemble catalog instructions).copyout =
        (danglingPart instructions).filterMap Instruction.copyout? := by
  induction instructions using List.reverseRecOn with
  | nil => exact ⟨rfl, rfl⟩
  | append_singleton before instruction ih =>
    rw [List.forall_mem_append] at legal
    rcases ih legal.1 with ⟨copyin, copyout⟩
    have step : assemble catalog (before ++ [instruction]) =
        (assemble catalog before).add catalog instruction := Assembly.addAll_append before _
    have opened := (mirrors_assemble legal.1).isOpen
    rw [step]
    cases instruction with
    | copyin input =>
      rw [danglingPart_append_transfer before rfl, List.filterMap_append, List.filterMap_append,
        ← copyin, ← copyout]
      exact ⟨rfl, (List.append_nil _).symm⟩
    | copyout output =>
      rw [danglingPart_append_transfer before rfl, ← opened, List.filterMap_append,
        List.filterMap_append, ← copyin, ← copyout]
      cases current : (assemble catalog before).current? with
      | none =>
        simp only [Assembly.add, current]
        exact ⟨(List.append_nil _).symm, rfl⟩
      | some call =>
        simp only [Assembly.add, current]
        exact ⟨(List.append_nil _).symm, (List.append_nil _).symm⟩
    | call word index args =>
      rw [danglingPart_append_call]
      exact ⟨rfl, rfl⟩

theorem complete_assemble_iff_nil {catalog : Catalog} {limit : UInt64}
    (legal : ∀ instruction ∈ instructions, instruction.Legal catalog limit) :
    (assemble catalog instructions).Complete ↔ danglingPart instructions = [] := by
  rw [(mirrors_assemble legal).complete, danglingPart_eq_nil_iff]

end Dangling

theorem populated_le_required (instructions : List Instruction) :
    populated instructions ≤ required instructions := by
  apply tableSize_mono
  intro index member
  rw [List.map_flatMap] at member
  rcases List.mem_flatMap.mp member with ⟨instruction, inside, written⟩
  exact List.mem_flatMap.mpr ⟨instruction, inside, List.mem_append_left _ written⟩

theorem Variables.Tracks.close_eq {vars : Variables} {writes : List (UInt64 × UInt64)}
    {indices : List UInt64} (tracks : vars.Tracks writes indices) :
    vars.close =
      if tableSize (writes.map Prod.fst) = tableSize indices then .ok (replay writes)
      else .error (.varsMismatch (tableSize (writes.map Prod.fst))
        (UInt64.ofNat (tableSize indices))) := by
  have word : vars.required = UInt64.ofNat (tableSize indices) := by
    rw [← tracks.required, UInt64.ofNat_toNat]
  rw [Variables.close, tracks.size_slots, tracks.required, tracks.slots, word]

section Verdicts

variable {catalog : Catalog} {limits : Limits} {bytes : Bytes}
  {instructions : List Instruction}

theorem tracks_at_stop
    (allows : (State.initial limits bytes).AllowsAll catalog instructions)
    (complete : (assemble catalog instructions).Complete) :
    ((State.initial limits bytes).takeAll catalog instructions).committed.vars.Tracks
      (instructions.flatMap Instruction.writes)
      (instructions.flatMap Instruction.references) := by
  have legal := (allowsAll_initial_iff.mp allows).1
  have written : (assemble catalog instructions).writes =
      (grouped catalog instructions).writes := writes_assemble complete rfl
  have writes := writes_of_assemble (grouped catalog instructions) legal complete rfl
  have tracks := ((State.sound_initial limits bytes).takeAll allows).tracks
  rw [State.assembly_committed, Assembly.writes_close, assembly_run legal, written,
    writes] at tracks
  apply tracks.congr
  intro index
  rw [← mem_references_of_assemble (grouped catalog instructions) legal complete rfl,
    Program.references, writes]
  rfl

theorem finish_at_stop
    (allows : (State.initial limits bytes).AllowsAll catalog instructions) :
    ((State.initial limits bytes).takeAll catalog instructions).committed.finish =
      if danglingPart instructions = [] then
        if populated instructions = required instructions then .ok (grouped catalog instructions)
        else .error (.varsMismatch (populated instructions)
          (UInt64.ofNat (required instructions)))
      else .error (.dangling ((danglingPart instructions).countP Instruction.isCopyin)
        ((danglingPart instructions).countP Instruction.isCopyout)) := by
  have legal := (allowsAll_initial_iff.mp allows).1
  obtain ⟨calls, copyin, copyout⟩ :=
    State.committed_eq_assembly ((State.initial limits bytes).takeAll catalog instructions)
  rw [assembly_run legal] at calls copyin copyout
  have tracks := tracks_at_stop allows
  generalize ((State.initial limits bytes).takeAll catalog instructions).committed = s at *
  have waits : (s.pending.copyin.isEmpty && s.pending.copyout.isEmpty) = true ↔
      (assemble catalog instructions).Complete := by
    rw [Assembly.Complete, ← copyin, ← copyout]
    simp
  unfold State.finish
  by_cases none : danglingPart instructions = []
  · have complete := (complete_assemble_iff_nil legal).mpr none
    have closed : s.vars.close =
        if populated instructions = required instructions then
          .ok (replay (instructions.flatMap Instruction.writes))
        else .error (.varsMismatch (populated instructions)
          (UInt64.ofNat (required instructions))) := (tracks complete).close_eq
    rw [if_pos (waits.mpr complete), if_pos none]
    by_cases reached : populated instructions = required instructions
    · rw [if_pos reached] at closed
      rw [if_pos reached, closed, calls]
      rfl
    · rw [if_neg reached] at closed
      rw [if_neg reached, closed]
  · have waiting : ¬ (assemble catalog instructions).Complete :=
      mt (complete_assemble_iff_nil legal).mp none
    rcases waiting_assemble legal with ⟨inputs, outputs⟩
    rw [if_neg (mt waits.mp waiting), if_neg none, ← Array.length_toList, ← Array.length_toList,
      copyin, copyout, inputs, outputs, List.length_filterMap_eq_countP,
      List.length_filterMap_eq_countP]
    simp only [isSome_copyin?, isSome_copyout?]

theorem reachesStop_iff : ReachesStop catalog limits bytes ↔
    (∃ program, decode catalog limits bytes = .ok program) ∨
      ∃ error, decode catalog limits bytes = .error error ∧ error.AtEnd := by
  constructor
  · rintro ⟨small, s, run⟩
    rw [decode_eq_verdict small, run]
    change (∃ program, s.finish = .ok program) ∨ ∃ error, s.finish = .error error ∧ error.AtEnd
    cases finished : s.finish with
    | ok program => exact .inl ⟨program, rfl⟩
    | error error => exact .inr ⟨error, rfl, State.atEnd_of_finish finished⟩
  · rintro (⟨program, accepted⟩ | ⟨error, refused, last⟩)
    · rcases decode_eq_ok_iff_instructions.mp accepted with ⟨small, s, run, _⟩
      exact ⟨small, s, run⟩
    · by_cases small : bytes.length ≤ limits.maxBytes.toNat
      · rw [decode_eq_verdict small] at refused
        cases run : Decoder.instructions catalog (.initial limits bytes) with
        | ok done s => exact ⟨small, s, run⟩
        | error other s =>
          rw [run] at refused
          cases refused
          exact absurd last (log_of_error small run).2.not_atEnd
      · rw [decode_too_large (by omega)] at refused
        cases refused
        cases last

/-- The instructions up to the stop word decide the verdict. -/
theorem decode_of_carries (reaches : ReachesStop catalog limits bytes)
    (carries : Carries bytes instructions) :
    (State.initial limits bytes).AllowsAll catalog instructions ∧
      decode catalog limits bytes =
        ((State.initial limits bytes).takeAll catalog instructions).committed.finish := by
  rcases reaches with ⟨small, s, run⟩
  rcases run_of_instructions run with ⟨own, d, also, allows, rfl⟩
  rw [carries.unique also, decode_eq_verdict small, run]
  exact ⟨allows, rfl⟩

theorem required_lt (allows : (State.initial limits bytes).AllowsAll catalog instructions)
    (none : danglingPart instructions = []) : required instructions < UInt64.size := by
  have legal := (allowsAll_initial_iff.mp allows).1
  have tracks := tracks_at_stop allows ((complete_assemble_iff_nil legal).mpr none)
  rw [required, ← tracks.required]
  exact UInt64.toNat_lt _

end Verdicts

/-- The verdict at the stop word is exact. Instructions that no call takes are refused first, with
their numbers and whatever the variables are. If there are none, the stream is refused exactly if
the result arguments do not reach every variable that is referred to, and accepted otherwise. -/
theorem decode_at_stop (catalog : Catalog) (limits : Limits) (bytes : Bytes)
    (reaches : ReachesStop catalog limits bytes) :
    (∃ instructions, Carries bytes instructions) ∧ ∀ instructions, Carries bytes instructions →
      (decode catalog limits bytes =
          .error (.dangling ((danglingPart instructions).countP Instruction.isCopyin)
            ((danglingPart instructions).countP Instruction.isCopyout)) ↔
        danglingPart instructions ≠ []) ∧
      (danglingPart instructions = [] →
        (UInt64.ofNat (required instructions)).toNat = required instructions ∧
        (decode catalog limits bytes =
            .error (.varsMismatch (populated instructions)
              (UInt64.ofNat (required instructions))) ↔
          populated instructions < required instructions) ∧
        ((∃ program, decode catalog limits bytes = .ok program) ↔
          ¬ populated instructions < required instructions)) ∧
      populated instructions ≤ required instructions := by
  constructor
  · rcases reaches with ⟨_, s, run⟩
    rcases run_of_instructions run with ⟨own, d, carries, _⟩
    exact ⟨own, carries⟩
  · intro instructions carries
    rcases decode_of_carries reaches carries with ⟨allows, verdict⟩
    have reached := populated_le_required instructions
    rw [finish_at_stop allows] at verdict
    by_cases none : danglingPart instructions = []
    · rw [if_pos none] at verdict
      by_cases equal : populated instructions = required instructions
      · rw [if_pos equal] at verdict
        rw [verdict]
        refine ⟨iff_of_false nofun (not_not_intro none), fun _ => ⟨?_, ?_, ?_⟩, reached⟩
        · exact UInt64.toNat_ofNat_of_lt' (required_lt allows none)
        · exact iff_of_false nofun (by omega)
        · exact iff_of_true ⟨_, rfl⟩ (by omega)
      · rw [if_neg equal] at verdict
        rw [verdict]
        refine ⟨iff_of_false nofun (not_not_intro none), fun _ => ⟨?_, ?_, ?_⟩, reached⟩
        · exact UInt64.toNat_ofNat_of_lt' (required_lt allows none)
        · exact iff_of_true rfl (by omega)
        · exact iff_of_false nofun (by omega)
    · rw [if_neg none] at verdict
      exact ⟨iff_of_true verdict none, fun empty => absurd empty none, reached⟩

def trailingTransfers : Bytes :=
  encodeWords [0, 3, 0, copyoutWord, 1, 0, 8, copyinWord, 16, 0, 8, 5, copyoutWord, 9, 0, 8,
    stopWord]

def unreachedResult : Bytes := encodeWords [0, 3, 0, stopWord]

theorem decode_at_stop_samples :
    (ReachesStop sampleCatalog {} trailingTransfers ∧
      decode sampleCatalog {} trailingTransfers = .error (.dangling 1 1) ∧
      ∃ instructions, Carries trailingTransfers instructions ∧ danglingPart instructions ≠ []) ∧
    (ReachesStop sampleCatalog {} unreachedResult ∧
      decode sampleCatalog {} unreachedResult = .error (.varsMismatch 0 4) ∧
      ∃ instructions, Carries unreachedResult instructions ∧ danglingPart instructions = [] ∧
        populated instructions = 0 ∧ required instructions = 4) ∧
    (ReachesStop sampleCatalog {} scrambledStream ∧
      decode sampleCatalog {} scrambledStream = .ok sampleProgram ∧
      ∃ instructions, Carries scrambledStream instructions ∧ danglingPart instructions = [] ∧
        populated instructions = required instructions) := by
  have trailing : decode sampleCatalog {} trailingTransfers = .error (.dangling 1 1) := by
    decide +kernel
  have unreached : decode sampleCatalog {} unreachedResult = .error (.varsMismatch 0 4) := by
    decide +kernel
  have accepted : decode sampleCatalog {} scrambledStream = .ok sampleProgram := by
    decide +kernel
  have first : ReachesStop sampleCatalog {} trailingTransfers :=
    reachesStop_iff.mpr (.inr ⟨_, trailing, trivial⟩)
  have second : ReachesStop sampleCatalog {} unreachedResult :=
    reachesStop_iff.mpr (.inr ⟨_, unreached, trivial⟩)
  have third : ReachesStop sampleCatalog {} scrambledStream :=
    reachesStop_iff.mpr (.inl ⟨_, accepted⟩)
  refine ⟨⟨first, trailing, ?_⟩, ⟨second, unreached, ?_⟩, third, accepted, ?_⟩
  · rcases decode_at_stop sampleCatalog {} trailingTransfers first with ⟨⟨list, carries⟩, verdict⟩
    refine ⟨list, carries, fun none => ?_⟩
    rcases (verdict list carries).2.1 none with ⟨_, mismatch, ok⟩
    rw [trailing] at mismatch ok
    by_cases less : populated list < required list
    · cases mismatch.mpr less
    · rcases ok.mpr less with ⟨_, same⟩
      cases same
  · rcases decode_at_stop sampleCatalog {} unreachedResult second with ⟨⟨list, carries⟩, verdict⟩
    rcases verdict list carries with ⟨dangling, rest, _⟩
    rw [unreached] at dangling rest
    have none : danglingPart list = [] := by
      by_contra some
      cases dangling.mpr some
    rcases rest none with ⟨whole, mismatch, ok⟩
    have less : populated list < required list := by
      by_contra reached
      rcases ok.mpr reached with ⟨_, same⟩
      cases same
    have fields := mismatch.mpr less
    rw [Except.error.injEq, DecodeError.varsMismatch.injEq] at fields
    rw [← fields.2] at whole
    exact ⟨list, carries, none, fields.1.symm, whole.symm⟩
  · rcases decode_at_stop sampleCatalog {} scrambledStream third with ⟨⟨list, carries⟩, verdict⟩
    rcases verdict list carries with ⟨dangling, rest, reached⟩
    rw [accepted] at dangling rest
    have none : danglingPart list = [] := by
      by_contra some
      cases dangling.mpr some
    have equal := (rest none).2.2.mp ⟨_, rfl⟩
    exact ⟨list, carries, none, by omega⟩

end SyscallStream
