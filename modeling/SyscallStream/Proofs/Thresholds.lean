import SyscallStream.Proofs.Extension
import SyscallStream.Proofs.Grammar
import SyscallStream.Proofs.Lockstep

/-! The two limits are thresholds. An accepted stream is accepted as the same program under all
limits that leave room for its bytes and its variables, and under no others. An error that does not
name a limit stays the same when the limits are raised. -/

namespace SyscallStream

namespace Variables

def withLimit (limit : UInt64) (vars : Variables) : Variables := { vars with limit }

theorem mentionAll_withLimit (limit : UInt64) (vars : Variables) (indices : List UInt64) :
    (vars.withLimit limit).mentionAll indices = (vars.mentionAll indices).withLimit limit := by
  induction indices generalizing vars with
  | nil => rfl
  | cons index indices ih => exact ih (vars.mention index)

end Variables

namespace State

def withLimit (limit : UInt64) (s : State) : State := { s with vars := s.vars.withLimit limit }

theorem finish_withLimit (limit : UInt64) (s : State) : (s.withLimit limit).finish = s.finish :=
  rfl

end State

/-- Runs under a lower and a higher limit: the same states but for the limit, until the lower one
refuses an index. -/
def limitTie (low high : UInt64) : Tie DecodeError State DecodeError State where
  states _ s t := s.vars.limit = low ∧ t = s.withLimit high
  refusals e _ d _ := e = d
  excused e := ∃ index, e = .varIndexTooLarge index low ∧ low ≤ index
  anywhere state := state

namespace Decoder

variable {low high : UInt64} {before after : Phase}

theorem assign_limit (raised : low ≤ high) (index value : UInt64) :
    (limitTie low high).InStep before after Eq (assign index value) (assign index value) := by
  rintro s t ⟨rfl, rfl⟩
  by_cases below : index < s.vars.limit
  · have above : index < (s.withLimit high).vars.limit := UInt64.lt_of_lt_of_le below raised
    simp only [assign, Variables.admits_iff.mpr below, Variables.admits_iff.mpr above, if_true]
    exact .ok rfl ⟨rfl, rfl⟩
  · have refused : assign index value s = .error (s.vars.refusal index) s :=
      if_neg (mt Variables.admits_iff.mp below)
    have excuse : (limitTie s.vars.limit high).excused (s.vars.refusal index) :=
      ⟨index, rfl, UInt64.not_lt.mp below⟩
    rw [refused]
    exact .excused excuse _

theorem commit_limit (raised : low ≤ high) :
    (limitTie low high).InStep before after Eq commit commit := by
  rintro s t ⟨rfl, rfl⟩
  cases settled : commit s with
  | ok done u =>
    rcases commit_eq_ok.mp settled with ⟨settles, rfl⟩
    have settles' : (s.withLimit high).Settles := fun index duty =>
      UInt64.lt_of_lt_of_le (settles index duty) raised
    rw [commit_eq_ok.mpr ⟨settles', rfl⟩]
    refine .ok rfl ⟨s.limit_committed, ?_⟩
    cases known : s.pending.syscall? with
    | none => simp [State.committed, State.withLimit, known]
    | some syscall => simp [State.committed, State.withLimit, known, Variables.mentionAll_withLimit]
  | error error u =>
    unfold commit at settled
    split at settled
    · cases settled
    · split at settled
      · rename_i refused
        cases settled
        exact .excused (Variables.referenceAll_error refused) _
      · cases settled

theorem lookup_limit (catalog : Catalog) (word : UInt64) :
    (limitTie low high).InStep before before Eq (lookup catalog word) (lookup catalog word) := by
  unfold lookup
  cases catalog.entry? word with
  | none => exact .throw fun _ _ => rfl
  | some syscall =>
    by_cases own : syscall.id = word
    · simp only [own, if_true]
      exact .pure rfl
    · simp only [own, if_false]
      exact .throw fun _ _ => rfl

theorem steps_limit (catalog : Catalog) (raised : low ≤ high) :
    Steps.Tied (limitTie low high) Eq (steps catalog) (steps catalog) := by
  have place (phase : Phase) (s t : State) (state : (limitTie low high).states phase s t) :
      s.cursor = t.cursor := by
    rcases state with ⟨_, rfl⟩
    rfl
  have moves (phase : Phase) (s t : State) (d : Cursor)
      (state : (limitTie low high).states phase s t) :
      (limitTie low high).states phase { s with cursor := d } { t with cursor := d } := by
    rcases state with ⟨limit, rfl⟩
    exact ⟨limit, rfl⟩
  have change {before after : Phase} (update : State → State)
      (limit : ∀ s, (update s).vars.limit = s.vars.limit)
      (commutes : ∀ s, update (s.withLimit high) = (update s).withLimit high) :
      (limitTie low high).InStep before after Eq (modify update : Decoder Unit)
        (modify update : Decoder Unit) := by
    apply Tie.InStep.modify
    rintro s t ⟨own, rfl⟩
    exact ⟨(limit s).trans own, commutes s⟩
  constructor
  case word => exact fun phase => word_inStep (place phase) (moves phase) fun _ _ _ _ => rfl
  case blob =>
    exact fun phase size => blob_inStep (place phase) (moves phase) (fun _ _ _ _ => rfl) size
  case reserve =>
    exact fun phase count =>
      reserve_inStep (place phase) (moves phase) (fun _ _ _ _ => rfl) count
  case refuse => exact fun _ _ _ _ => .throw fun _ _ => rfl
  case lookup => exact fun {word} _ => lookup_limit catalog word
  case assign => exact fun _ index value => assign_limit raised index value
  case commit => exact commit_limit raised
  case start =>
    rintro syscall _ rfl index
    exact change _ (fun _ => rfl) fun _ => rfl
  case pushArg => exact fun _ => change _ (fun _ => rfl) fun _ => rfl
  case pushCopyin => exact fun _ => change _ (fun _ => rfl) fun _ => rfl
  case pushCopyout => exact fun _ => change _ (fun _ => rfl) fun _ => rfl
  case finished =>
    rintro s t ⟨limit, rfl⟩
    exact .ok rfl ⟨limit, rfl⟩

end Decoder

section Verdicts

variable {catalog : Catalog} {limits other : Limits} {bytes : Bytes} {program : Program}

/-- A stream either names a variable beyond the lower limit, or has the same verdict under both. -/
theorem decode_raised (raised : limits.maxVars ≤ other.maxVars)
    (small : bytes.length ≤ limits.maxBytes.toNat)
    (small' : bytes.length ≤ other.maxBytes.toNat) :
    (∃ index, decode catalog limits bytes = .error (.varIndexTooLarge index limits.maxVars) ∧
      limits.maxVars ≤ index) ∨
    decode catalog other bytes = decode catalog limits bytes := by
  have ends := Decoder.instructions_inStep (Decoder.steps_limit catalog raised)
    (.initial limits bytes) (.initial other bytes) ⟨rfl, rfl⟩
  rw [decode_eq_verdict small, decode_eq_verdict small']
  generalize Decoder.instructions catalog (.initial limits bytes) = lower at ends ⊢
  generalize Decoder.instructions catalog (.initial other bytes) = higher at ends ⊢
  cases ends with
  | @ok _ s _ t value state =>
    rcases state with ⟨_, rfl⟩
    exact .inr (s.finish_withLimit other.maxVars)
  | error same =>
    rw [same]
    exact .inr rfl
  | excused excuse =>
    rcases excuse with ⟨index, rfl, beyond⟩
    exact .inl ⟨index, rfl, beyond⟩

theorem length_vars_le (accepted : decode catalog limits bytes = .ok program) :
    program.vars.length ≤ limits.maxVars.toNat := by
  have wellFormed := wellFormed_of_decode accepted
  have consistent := Program.consistent_of_slots wellFormed.vars wellFormed.slots
  rw [consistent.length_vars, tableSize_le_iff]
  intro index member
  exact UInt64.lt_iff_toNat_lt.mp (wellFormed.indices index member)

theorem decode_of_room (accepted : decode catalog limits bytes = .ok program)
    (small : bytes.length ≤ other.maxBytes.toNat)
    (room : program.vars.length ≤ other.maxVars.toNat) :
    decode catalog other bytes = .ok program := by
  obtain ⟨_, instructions, wire, rest, split, wires, legal, complete, built, _, consistent⟩ :=
    decode_eq_ok_iff_assemble.mp accepted
  have below : ∀ index ∈ program.references, index < other.maxVars := by
    intro index member
    have inside := consistent.slots index member
    exact UInt64.lt_iff_toNat_lt.mpr (Nat.lt_of_lt_of_le inside room)
  have writes := writes_of_assemble program legal complete built
  apply decode_eq_ok_iff_assemble.mpr
  refine ⟨small, instructions, wire, rest, split, wires, ?_, complete, built, ?_, consistent⟩
  · intro instruction member
    refine ⟨?_, (legal instruction member).call⟩
    intro write written
    apply below
    apply List.mem_append_left
    rw [writes]
    exact List.mem_map_of_mem (List.mem_flatMap.mpr ⟨instruction, member, written⟩)
  · intro index output
    exact below index (List.mem_append_right _ output)

theorem decode_of_no_room (accepted : decode catalog limits bytes = .ok program)
    (small : bytes.length ≤ other.maxBytes.toNat)
    (full : other.maxVars.toNat < program.vars.length) :
    ∃ index, decode catalog other bytes = .error (.varIndexTooLarge index other.maxVars) ∧
      other.maxVars ≤ index := by
  have bound := length_vars_le accepted
  have raised : other.maxVars ≤ limits.maxVars := UInt64.le_iff_toNat_le.mpr (by omega)
  have same : decode catalog { other with maxVars := limits.maxVars } bytes = .ok program :=
    decode_of_room accepted small bound
  rcases @decode_raised catalog other { other with maxVars := limits.maxVars } bytes raised small
    small with refused | equal
  · exact refused
  · -- Accepted under the lower limit as well, the program would have a table that fits it.
    rw [same] at equal
    have fits := length_vars_le equal.symm
    omega

end Verdicts

/-- Both limits act as exact thresholds. An accepted stream is accepted as the same program where it
has room, and is refused for the limit it exceeds where it has none. Raising the limits changes no
other error. -/
theorem decode_thresholds (catalog : Catalog) (limits other : Limits) (bytes : Bytes) :
    (∀ program, decode catalog limits bytes = .ok program →
      (bytes.length ≤ other.maxBytes.toNat → program.vars.length ≤ other.maxVars.toNat →
        decode catalog other bytes = .ok program) ∧
      (other.maxBytes.toNat < bytes.length →
        decode catalog other bytes =
          .error (.programTooLarge bytes.length other.maxBytes)) ∧
      (bytes.length ≤ other.maxBytes.toNat → other.maxVars.toNat < program.vars.length →
        ∃ index, decode catalog other bytes =
            .error (.varIndexTooLarge index other.maxVars) ∧
          other.maxVars ≤ index)) ∧
    ∀ error, decode catalog limits bytes = .error error →
      (∀ size limit, error ≠ .programTooLarge size limit) →
      (∀ index limit, error ≠ .varIndexTooLarge index limit) →
      limits.maxBytes ≤ other.maxBytes → limits.maxVars ≤ other.maxVars →
      decode catalog other bytes = .error error := by
  constructor
  · intro program accepted
    exact ⟨decode_of_room accepted, decode_too_large, decode_of_no_room accepted⟩
  · intro error refused sized indexed bytes' vars
    have small : bytes.length ≤ limits.maxBytes.toNat := by
      by_contra large
      rw [decode_too_large (by omega)] at refused
      exact sized _ _ (Except.error.inj refused).symm
    have small' : bytes.length ≤ other.maxBytes.toNat :=
      Nat.le_trans small (UInt64.le_iff_toNat_le.mp bytes')
    rcases decode_raised vars small small' with ⟨index, beyond, _⟩ | same
    · rw [beyond] at refused
      exact absurd (Except.error.inj refused).symm (indexed index _)
    · exact same.trans refused

/-- The sample takes 179 bytes and two variables, and the limits are exact at these numbers. A word
without an entry is refused alike under higher limits. -/
theorem decode_thresholds_scrambled :
    decode sampleCatalog {} scrambledStream = .ok sampleProgram ∧
      decode sampleCatalog ⟨179, 2⟩ scrambledStream = .ok sampleProgram ∧
      decode sampleCatalog ⟨178, 2⟩ scrambledStream = .error (.programTooLarge 179 178) ∧
      (∃ index, decode sampleCatalog ⟨179, 1⟩ scrambledStream =
        .error (.varIndexTooLarge index 1) ∧ 1 ≤ index) ∧
      decode sampleCatalog ⟨8, 0⟩ (encodeWords [7]) = .error (.badSyscall 7 1) ∧
      decode sampleCatalog {} (encodeWords [7]) = .error (.badSyscall 7 1) := by
  have accepted : decode sampleCatalog {} scrambledStream = .ok sampleProgram := by
    decide +kernel
  have refused : decode sampleCatalog ⟨8, 0⟩ (encodeWords [7]) = .error (.badSyscall 7 1) := by
    decide +kernel
  have limited (other : Limits) :=
    (decode_thresholds sampleCatalog {} other scrambledStream).1 sampleProgram accepted
  refine ⟨accepted, (limited ⟨179, 2⟩).1 (by decide +kernel) (by decide +kernel),
    (limited ⟨178, 2⟩).2.1 (by decide +kernel),
    (limited ⟨179, 1⟩).2.2 (by decide +kernel) (by decide +kernel), refused, ?_⟩
  exact (decode_thresholds sampleCatalog ⟨8, 0⟩ {} (encodeWords [7])).2 _ refused nofun nofun
    (by decide) (by decide)

end SyscallStream
