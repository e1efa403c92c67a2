import SyscallStream.Proofs.Extension
import SyscallStream.Proofs.Lockstep
import SyscallStream.Proofs.Machine

/-! No stream brings the checking machine to a fault. It stays in step with the decoder, and the
phases of a reading say why the assertions hold: a call starts only behind a commit, and arguments
come only into an open call. -/

namespace SyscallStream

structure Machine.Follows (m : Machine) (s : State) : Prop where
  located : m.At s.cursor
  vars : m.vars = s.vars
  pending : m.pending = s.pending
  calls : m.calls = s.calls

/-- What was gathered fits where the reading stands. Arguments are there only in an open call. -/
def Phase.Fits : Phase → Pending → Prop
  | .idle, pending => pending.syscall? = none ∧ pending.args = #[]
  | .busy, pending => pending.syscall? ≠ none
  | .anywhere, pending => pending.syscall? = none → pending.args = #[]

theorem Phase.Fits.anywhere {phase : Phase} {pending : Pending} (fits : phase.Fits pending) :
    Phase.anywhere.Fits pending := by
  cases phase with
  | idle => exact fun _ => fits.2
  | busy => exact fun none => absurd none fits
  | anywhere => exact fits

/-- The decoder and the machine: the same states, and the same refusals in place of faults. -/
def machineTie : Tie DecodeError State Halt Machine where
  states phase s m := m.Follows s ∧ phase.Fits s.pending
  refusals e _ d _ := d = .refused e
  excused _ := False
  anywhere state := ⟨state.1, state.2.anywhere⟩

namespace Machine

variable {phase before after : Phase}

theorem Reads.inStep {α : Type} {reader : Reader α} {step : Checked α} (reads : Reads reader step) :
    machineTie.InStep phase phase Eq (Decoder.onCursor reader) step := by
  rintro s m ⟨follows, fits⟩
  unfold Decoder.onCursor
  rcases reads m s.cursor follows.located with
    ⟨a, d, position, read, ran, located⟩ | ⟨error, d, m', read, ran⟩
  · rw [read, ran]
    exact .ok rfl ⟨⟨located, follows.vars, follows.pending, follows.calls⟩, fits⟩
  · rw [read, ran]
    exact .error rfl

theorem lookup_inStep (catalog : Catalog) (word : UInt64) :
    machineTie.InStep phase phase Eq (Decoder.lookup catalog word) (lookup catalog word) := by
  unfold Decoder.lookup lookup
  cases catalog.entry? word with
  | none => exact .throw fun _ _ => rfl
  | some syscall =>
    by_cases own : syscall.id = word
    · simp only [own, if_true]
      exact .pure rfl
    · simp only [own, if_false]
      exact .throw fun _ _ => rfl

theorem assign_inStep (index value : UInt64) :
    machineTie.InStep phase phase Eq (Decoder.assign index value) (assign index value) := by
  rintro s m ⟨follows, fits⟩
  by_cases below : index < s.vars.limit
  · have below' : index < m.vars.limit := follows.vars ▸ below
    rw [Decoder.assign, if_pos (Variables.admits_iff.mpr below), assign_of below', follows.vars]
    exact .ok rfl ⟨⟨follows.located.of_same rfl rfl, rfl, follows.pending, follows.calls⟩, fits⟩
  · have beyond : ¬ index < m.vars.limit := follows.vars ▸ below
    rw [Decoder.assign, if_neg (mt Variables.admits_iff.mp below), assign_refused beyond,
      follows.vars]
    exact .error rfl

theorem gather_of {change : Pending → Pending} {m : Machine}
    (tidy : (change m.pending).syscall? = none → (change m.pending).args = #[]) :
    gather change m = .ok () { m with pending := change m.pending } := by
  rw [gather, get_bind]
  change check ((change m.pending).syscall? = none → (change m.pending).args = #[]) _ _ = _
  rw [check_of tidy]
  rfl

theorem gather_inStep {change : Pending → Pending}
    (keeps : ∀ pending, before.Fits pending → after.Fits (change pending)) :
    machineTie.InStep before after Eq
      (modify fun s => { s with pending := change s.pending } : Decoder Unit) (gather change) := by
  rintro s m ⟨follows, fits⟩
  have fits' := keeps s.pending fits
  rw [gather_of (follows.pending ▸ fits'.anywhere), follows.pending]
  exact .ok rfl ⟨⟨follows.located.of_same rfl rfl, follows.vars, rfl, follows.calls⟩, fits'⟩

theorem start_inStep (syscall : Syscall) (index : UInt64) :
    machineTie.InStep .idle .busy Eq (Decoder.start syscall index) (start syscall index) := by
  rintro s m ⟨follows, fits⟩
  have closed : m.pending.syscall? = none := follows.pending ▸ fits.1
  rw [start, get_bind, check_of closed]
  have opens : ∀ pending : Pending, Phase.idle.Fits pending →
      Phase.busy.Fits { pending with syscall? := some syscall, index } := by
    intro pending _
    exact Option.some_ne_none syscall
  exact gather_inStep opens s m ⟨follows, fits⟩

theorem commit_inStep : machineTie.InStep .anywhere .idle Eq Decoder.commit commit := by
  rintro s m ⟨follows, fits⟩
  unfold Decoder.commit
  rw [commit, get_bind, follows.pending]
  cases known : s.pending.syscall? with
  | none => exact .ok rfl ⟨follows, known, fits known⟩
  | some syscall =>
    have cleared : gather (fun _ => {}) m = .ok () { m with pending := {} } := gather_of fun _ => rfl
    simp only
    rw [bind_ok cleared, ← follows.vars]
    rcases requireAll_eq { m with pending := {} } s.pending.references with
      ⟨vars, referred, required⟩ | ⟨error, m', referred, required⟩
    · rw [referred, bind_ok required]
      have calls : m.calls.push (s.pending.toCall syscall) =
          s.calls.push (s.pending.toCall syscall) := by rw [follows.calls]
      exact .ok rfl ⟨⟨follows.located.of_same rfl rfl, rfl, rfl, calls⟩, rfl, rfl⟩
    · rw [referred, bind_error required]
      exact .error rfl

theorem steps_inStep (catalog : Catalog) :
    Steps.Tied machineTie Eq (Decoder.steps catalog) (steps catalog) := by
  constructor
  case word => exact fun _ => word_reads.inStep
  case blob => exact fun _ size => (blob_reads size).inStep
  case reserve => exact fun _ count => (reserve_reads count).inStep
  case refuse => exact fun _ _ _ _ => .throw fun _ _ => rfl
  case lookup => exact fun {word} _ => lookup_inStep catalog word
  case assign => exact fun _ index value => assign_inStep index value
  case commit => exact commit_inStep
  case start =>
    rintro syscall _ rfl index
    exact start_inStep syscall index
  case pushArg =>
    intro arg
    exact @gather_inStep .busy .busy (fun pending => { pending with args := pending.args.push arg })
      fun _ fits => fits
  case pushCopyin =>
    intro copyin
    exact @gather_inStep .idle .idle
      (fun pending => { pending with copyin := pending.copyin.push copyin }) fun _ fits => fits
  case pushCopyout =>
    intro copyout
    exact @gather_inStep .anywhere .anywhere
      (fun pending => { pending with copyout := pending.copyout.push copyout }) fun _ fits => fits
  case finished =>
    rintro s m ⟨follows, fits⟩
    refine .ok ?_ ⟨follows, fits⟩
    rw [follows.calls]

theorem instructions_inStep (catalog : Catalog) {count : Nat} {s : State} {m : Machine}
    (enough : s.remaining / wordSize < count) (state : machineTie.states .anywhere s m) :
    machineTie.Ends .anywhere Eq (Decoder.instructions catalog s)
      (instructions catalog count m) :=
  Decoder.bounded_inStep (steps_inStep catalog) (fun _ => rfl) enough state

theorem finish_eq {s : State} {m : Machine} (follows : m.Follows s)
    (closed : s.pending.syscall? = none) :
    finish m = match s.finish with
      | .ok program => .ok program m
      | .error error => .error (.refused error) m := by
  have closed' : m.pending.syscall? = none := follows.pending ▸ closed
  rw [finish, get_bind, check_of closed', follows.pending, follows.vars, follows.calls]
  unfold State.finish
  change (if _ then _ else _ : Checked Program) m = _
  split
  · cases s.vars.close <;> rfl
  · rfl

theorem initial_states {limits : Limits} {bytes : Bytes}
    (small : bytes.length ≤ limits.maxBytes.toNat) :
    machineTie.states .anywhere (.initial limits bytes) (initial limits bytes) := by
  have fits : bytes.length < UInt64.size := Nat.lt_of_le_of_lt small limits.maxBytes.toNat_lt
  have located : (initial limits bytes).At (.ofBytes bytes) := ⟨fits, rfl, Nat.zero_le _, rfl⟩
  exact ⟨⟨located, rfl, rfl, rfl⟩, fun _ => rfl⟩

theorem closed_of_instructions {catalog : Catalog} {s t : State}
    (run : Decoder.instructions catalog s = .ok () t) : t.pending.syscall? = none := by
  rcases Decoder.wire_of_instructions run with ⟨list, wire, d, _, _, _, rfl⟩
  exact State.syscall_committed _

theorem program_eq (catalog : Catalog) {limits : Limits} {bytes : Bytes}
    (small : bytes.length ≤ limits.maxBytes.toNat) :
    ∃ m, program catalog (bytes.length / wordSize + 1) (initial limits bytes) =
      match decode catalog limits bytes with
      | .ok program => .ok program m
      | .error error => .error (.refused error) m := by
  have ends := instructions_inStep catalog (Nat.lt_succ_self (bytes.length / wordSize))
    (initial_states small)
  rw [decode_eq_verdict small, program]
  generalize ran : Decoder.instructions catalog (.initial limits bytes) = one at ends
  generalize ran' : instructions catalog (bytes.length / wordSize + 1) (initial limits bytes) =
    two at ends
  cases ends with
  | @ok _ s _ m value state =>
    refine ⟨m, ?_⟩
    rw [bind_ok ran', finish_eq state.1 (closed_of_instructions ran)]
    rfl
  | @error error s halt m refusal =>
    refine ⟨m, ?_⟩
    rw [bind_error ran', refusal]
    rfl
  | excused excuse => exact excuse.elim

end Machine

/-- Decoding is safe. Whatever the catalog, the limits and the bytes are, no sum or product leaves 64
bits, no range leaves the buffer, a word is made of eight bytes, a slot that is written is in the
table, a call starts and the program ends while no call is open, and arguments are there only in an
open call: the machine that checks all this comes to the verdict of the decoder. -/
theorem checkedDecode_eq (catalog : Catalog) (limits : Limits) (bytes : Bytes) :
    checkedDecode catalog limits bytes = .ok (decode catalog limits bytes) := by
  by_cases small : bytes.length ≤ limits.maxBytes.toNat
  · rcases Machine.program_eq catalog small with ⟨m, ran⟩
    rw [checkedDecode, if_neg (by omega), ran]
    cases decode catalog limits bytes <;> rfl
  · rw [checkedDecode, if_pos (by omega), decode_too_large (by omega)]

-- The checks do stop a machine: a range behind the buffer, and a call inside another one.
example : ∃ m, Machine.slice 0 9 (.initial {} []) = .error (.fault .slice) m := ⟨_, rfl⟩

example (syscall : Syscall) :
    ∃ m, (do Machine.start syscall 0; Machine.start syscall 0) (Machine.initial {} []) =
      .error (.fault .begun) m :=
  ⟨_, rfl⟩

end SyscallStream
