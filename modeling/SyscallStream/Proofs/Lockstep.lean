import SyscallStream.Proofs.Run
import SyscallStream.Proofs.Steps

/-! Two runs side by side. A tie says how their states belong together and which refusals answer
each other. If the steps of two readings keep a tie, so do whole instructions and whole runs. -/

namespace SyscallStream

/-- Where a reading stands: the call before is finished, a call takes its arguments, or either. -/
inductive Phase where
  | idle
  | busy
  | anywhere

structure Tie (ε σ δ τ : Type) where
  states : Phase → σ → τ → Prop
  refusals : ε → σ → δ → τ → Prop
  /-- After such an error of the first run, the second may do anything. -/
  excused : ε → Prop
  anywhere : ∀ {phase s t}, states phase s t → states .anywhere s t

namespace Tie

variable {ε σ δ τ α β γ κ : Type} {tie : Tie ε σ δ τ}

inductive Ends (tie : Tie ε σ δ τ) (after : Phase) (values : α → β → Prop) :
    EStateM.Result ε σ α → EStateM.Result δ τ β → Prop
  | ok {a : α} {s : σ} {b : β} {t : τ} (value : values a b) (state : tie.states after s t) :
      Ends tie after values (.ok a s) (.ok b t)
  | error {e : ε} {s : σ} {d : δ} {t : τ} (refusal : tie.refusals e s d t) :
      Ends tie after values (.error e s) (.error d t)
  | excused {e : ε} {s : σ} (excuse : tie.excused e) (other : EStateM.Result δ τ β) :
      Ends tie after values (.error e s) other

def InStep (tie : Tie ε σ δ τ) (before after : Phase) (values : α → β → Prop)
    (first : EStateM ε σ α) (second : EStateM δ τ β) : Prop :=
  ∀ s t, tie.states before s t → tie.Ends after values (first s) (second t)

namespace InStep

variable {before middle after phase : Phase} {values : α → β → Prop} {results : γ → κ → Prop}
  {first : EStateM ε σ α} {second : EStateM δ τ β}

theorem pure {a : α} {b : β} (value : values a b) :
    InStep tie phase phase values (Pure.pure a) (Pure.pure b) :=
  fun _ _ state => .ok value state

theorem bind {next : α → EStateM ε σ γ} {next' : β → EStateM δ τ κ}
    (start : InStep tie before middle values first second)
    (rest : ∀ a b, values a b → InStep tie middle after results (next a) (next' b)) :
    InStep tie before after results (first >>= next) (second >>= next') := by
  intro s t state
  have ends := start s t state
  change tie.Ends after results (EStateM.bind first next s) (EStateM.bind second next' t)
  unfold EStateM.bind
  generalize first s = one at ends ⊢
  generalize second t = two at ends ⊢
  cases ends with
  | ok value state => exact rest _ _ value _ _ state
  | error refusal => exact .error refusal
  | excused excuse other => exact .excused excuse _

/-- Where both steps give the same value, what follows is compared at one value. -/
theorem andThen {first : EStateM ε σ α} {second : EStateM δ τ α} {next : α → EStateM ε σ γ}
    {next' : α → EStateM δ τ κ} (start : InStep tie before middle Eq first second)
    (rest : ∀ a, InStep tie middle after results (next a) (next' a)) :
    InStep tie before after results (first >>= next) (second >>= next') := by
  apply start.bind
  intro a b same
  rw [same]
  exact rest b

theorem modify {change : σ → σ} {change' : τ → τ}
    (keeps : ∀ s t, tie.states before s t → tie.states after (change s) (change' t)) :
    InStep tie before after Eq (modify change : EStateM ε σ Unit)
      (modify change' : EStateM δ τ Unit) :=
  fun s t state => .ok rfl (keeps s t state)

theorem throw {e : ε} {d : δ} (refusal : ∀ s t, tie.refusals e s d t) :
    InStep tie before after values (MonadExcept.throw e) (MonadExcept.throw d) :=
  fun s t _ => .error (refusal s t)

theorem anywhere (start : InStep tie before after values first second) :
    InStep tie before .anywhere values first second := by
  intro s t state
  have ends := start s t state
  generalize first s = one at ends ⊢
  generalize second t = two at ends ⊢
  cases ends with
  | ok value state => exact .ok value (tie.anywhere state)
  | error refusal => exact .error refusal
  | excused excuse other => exact .excused excuse _

end InStep

end Tie

/-- Two readings whose steps keep a tie. An entry of the first catalog may stand for another one of
the second. -/
structure Steps.Tied {ε σ δ τ : Type} (tie : Tie ε σ δ τ) (entries : Syscall → Syscall → Prop)
    (first : Steps (EStateM ε σ)) (second : Steps (EStateM δ τ)) : Prop where
  word (phase : Phase) : tie.InStep phase phase Eq first.word second.word
  blob (phase : Phase) (size : UInt64) :
    tie.InStep phase phase Eq (first.blob size) (second.blob size)
  reserve (phase : Phase) (count : UInt64) :
    tie.InStep phase phase Eq (first.reserve count) (second.reserve count)
  refuse (phase : Phase) {α : Type} {error : DecodeError}
    (sizeless : ∀ index count, error ≠ .badSyscall index count) :
    tie.InStep phase phase (Eq (α := α)) (first.refuse error) (second.refuse error)
  lookup {word : UInt64} (plain : ¬ IsMarker word) :
    tie.InStep .idle .idle entries (first.lookup word) (second.lookup word)
  assign (phase : Phase) (index value : UInt64) :
    tie.InStep phase phase Eq (first.assign index value) (second.assign index value)
  commit : tie.InStep .anywhere .idle Eq first.commit second.commit
  start {syscall other : Syscall} (entry : entries syscall other) (index : UInt64) :
    tie.InStep .idle .busy Eq (first.start syscall index) (second.start other index)
  pushArg (arg : Arg) : tie.InStep .busy .busy Eq (first.pushArg arg) (second.pushArg arg)
  pushCopyin (copyin : Copyin) :
    tie.InStep .idle .idle Eq (first.pushCopyin copyin) (second.pushCopyin copyin)
  pushCopyout (copyout : Copyout) :
    tie.InStep .anywhere .anywhere Eq (first.pushCopyout copyout) (second.pushCopyout copyout)
  finished : tie.InStep .busy .busy Eq first.finished second.finished

namespace Steps.Tied

variable {ε σ δ τ : Type} {tie : Tie ε σ δ τ} {entries : Syscall → Syscall → Prop}
  {first : Steps (EStateM ε σ)} {second : Steps (EStateM δ τ)}
  (tied : Tied tie entries first second)
include tied

section Arguments

variable (phase : Phase)

theorem constArg : tie.InStep phase phase Eq first.constArg second.constArg :=
  (tied.word phase).andThen fun _ => (tied.word phase).andThen fun _ => .pure rfl

theorem resultArg : tie.InStep phase phase Eq first.resultArg second.resultArg :=
  (tied.word phase).andThen fun _ => (tied.word phase).andThen fun _ =>
    (tied.word phase).andThen fun _ => (tied.word phase).andThen fun _ =>
      (tied.word phase).andThen fun _ => .pure rfl

theorem dataArg : tie.InStep phase phase Eq first.dataArg second.dataArg :=
  (tied.word phase).andThen fun _ => (tied.blob phase _).andThen fun _ => .pure rfl

theorem chunk : tie.InStep phase phase Eq first.chunk second.chunk :=
  (tied.word phase).andThen fun _ => (tied.word phase).andThen fun _ =>
    (tied.word phase).andThen fun _ => .pure rfl

theorem chunks (count : Nat) (buffer : ChunkBuffer) :
    tie.InStep phase phase Eq (first.chunks count buffer) (second.chunks count buffer) := by
  induction count generalizing buffer with
  | zero => exact .pure rfl
  | succ count ih => exact (tied.chunk phase).andThen fun _ => ih _

theorem checksumArg : tie.InStep phase phase Eq first.checksumArg second.checksumArg := by
  apply (tied.word phase).andThen
  intro size
  apply (tied.word phase).andThen
  intro word
  cases ChecksumKind.ofWord? word with
  | none => exact tied.refuse phase nofun
  | some kind =>
    exact (tied.word phase).andThen fun _ => (tied.reserve phase _).andThen fun _ =>
      (tied.chunks phase _ _).andThen fun _ => .pure rfl

theorem arg : tie.InStep phase phase Eq first.arg second.arg := by
  apply (tied.word phase).andThen
  intro word
  cases ArgKind.ofWord? word with
  | none => exact tied.refuse phase nofun
  | some kind =>
    cases kind with
    | const => exact (tied.constArg phase).andThen fun _ => .pure rfl
    | result => exact (tied.resultArg phase).andThen fun _ => .pure rfl
    | data => exact (tied.dataArg phase).andThen fun _ => .pure rfl
    | checksum => exact (tied.checksumArg phase).andThen fun _ => .pure rfl

theorem operand : tie.InStep phase phase Eq first.operand second.operand := by
  apply (tied.arg phase).andThen
  intro arg
  cases arg with
  | result arg => exact (tied.assign phase _ _).andThen fun _ => .pure rfl
  | _ => exact .pure rfl

end Arguments

theorem operands (count position : Nat) :
    tie.InStep .busy .busy Eq (first.operands count position) (second.operands count position) := by
  induction count generalizing position with
  | zero => exact .pure rfl
  | succ count ih =>
    apply (tied.operand .busy).andThen
    intro arg
    cases arg.isScalar with
    | true => exact (tied.pushArg arg).andThen fun _ => ih _
    | false => exact tied.finished.andThen fun _ => tied.refuse .busy nofun

theorem call {word : UInt64} (plain : ¬ IsMarker word) :
    tie.InStep .idle .busy Eq (first.call word) (second.call word) := by
  apply (tied.lookup plain).bind
  intro syscall other entry
  apply (tied.word .idle).andThen
  intro index
  apply (tied.start entry index).andThen
  intro _
  exact (tied.word .busy).andThen fun count => tied.operands count.toNat 0

theorem instruction : tie.InStep .anywhere .anywhere Eq first.instruction second.instruction := by
  apply (tied.word .anywhere).andThen
  intro word
  cases opcode : Opcode.ofWord word with
  | stop => exact (tied.commit.andThen fun _ => .pure rfl).anywhere
  | copyin =>
    exact (tied.commit.andThen fun _ => (tied.word .idle).andThen fun _ =>
      (tied.operand .idle).andThen fun _ => (tied.pushCopyin _).andThen fun _ =>
        .pure rfl).anywhere
  | copyout =>
    exact (tied.word .anywhere).andThen fun _ => (tied.word .anywhere).andThen fun _ =>
      (tied.word .anywhere).andThen fun _ => (tied.pushCopyout _).andThen fun _ => .pure rfl
  | call id =>
    rcases Opcode.ofWord_eq_call.mp opcode with ⟨rfl, plain⟩
    exact (tied.commit.andThen fun _ => (tied.call plain).andThen fun _ => .pure rfl).anywhere

end Steps.Tied

namespace Decoder

section Readers

variable {tie : Tie DecodeError State DecodeError State} {phase : Phase}
  (place : ∀ s t, tie.states phase s t → s.cursor = t.cursor)
  (moves : ∀ s t d, tie.states phase s t →
    tie.states phase { s with cursor := d } { t with cursor := d })
  (overflows : ∀ (c : Cursor) needed s t, tie.refusals (c.overflow needed) s (c.overflow needed) t)
include place moves overflows

theorem onCursor_inStep {α : Type} {reader : Reader α}
    (fails : ∀ c e d, reader c = .error e d → ∃ needed, e = c.overflow needed) :
    tie.InStep phase phase Eq (onCursor reader) (onCursor reader) := by
  intro s t state
  unfold onCursor
  rw [← place s t state]
  cases read : reader s.cursor with
  | ok a d => exact .ok rfl (moves s t d state)
  | error e d =>
    rcases fails _ _ _ read with ⟨needed, rfl⟩
    exact .error (overflows _ _ _ _)

theorem word_inStep : tie.InStep phase phase Eq (onCursor readWord) (onCursor readWord) := by
  apply onCursor_inStep place moves overflows
  intro c e d read
  exact ⟨wordSize, (readWord_error read).2.1⟩

theorem blob_inStep (size : UInt64) :
    tie.InStep phase phase Eq (onCursor (readBlob size)) (onCursor (readBlob size)) := by
  apply onCursor_inStep place moves overflows
  intro c e d read
  unfold readBlob at read
  split at read
  · cases read
    exact ⟨_, rfl⟩
  · split at read
    · cases read
    · cases read
      exact ⟨_, rfl⟩

theorem reserve_inStep (count : UInt64) :
    tie.InStep phase phase Eq (onCursor (Chunk.reserve count)) (onCursor (Chunk.reserve count)) :=
  onCursor_inStep place moves overflows fun _ _ _ read => nomatch read

end Readers

theorem instructions_inStep {tie : Tie DecodeError State DecodeError State}
    {entries : Syscall → Syscall → Prop} {first second : Catalog}
    (tied : Steps.Tied tie entries (Decoder.steps first) (Decoder.steps second)) :
    tie.InStep .anywhere .anywhere Eq (instructions first) (instructions second) := by
  have step := tied.instruction
  rw [instruction_steps, instruction_steps] at step
  intro s t state
  induction s using instructions.induct first generalizing t with
  | case1 s error u ran =>
    have ends := step s t state
    rw [ran] at ends
    rw [instructions_of_error ran]
    generalize ran' : instruction second t = result at ends
    cases ends with
    | error refusal =>
      rw [instructions_of_error ran']
      exact .error refusal
    | excused excuse => exact .excused excuse _
  | case2 s u ran =>
    have ends := step s t state
    rw [ran] at ends
    rw [instructions_of_false ran]
    generalize ran' : instruction second t = result at ends
    cases ends with
    | ok value state =>
      subst value
      rw [instructions_of_false ran']
      exact .ok rfl state
  | case3 s u ran shorter ih =>
    have ends := step s t state
    rw [ran] at ends
    rw [instructions_of_true ran]
    generalize ran' : instruction second t = result at ends
    cases ends with
    | ok value state =>
      subst value
      rw [instructions_of_true ran']
      exact ih _ state

-- Every instruction takes a word, so a loop over as many instructions as there are words reads all
-- of them.
theorem bounded_inStep {δ τ : Type} {tie : Tie DecodeError State δ τ}
    {entries : Syscall → Syscall → Prop} {catalog : Catalog} {second : Steps (EStateM δ τ)}
    (tied : Steps.Tied tie entries (steps catalog) second) {loop : Nat → EStateM δ τ Unit}
    (round : ∀ count, loop (count + 1) =
      second.instruction >>= fun more => if more then loop count else pure ())
    {count : Nat} {s : State} {t : τ} (enough : s.remaining / wordSize < count)
    (state : tie.states .anywhere s t) :
    tie.Ends .anywhere Eq (instructions catalog s) (loop count t) := by
  have step := tied.instruction
  rw [instruction_steps] at step
  induction count generalizing s t with
  | zero => exact absurd enough (Nat.not_lt_zero _)
  | succ count ih =>
    have ends := step s t state
    rw [round]
    change tie.Ends _ _ _ (EStateM.bind _ _ t)
    unfold EStateM.bind
    generalize second.instruction t = result at ends ⊢
    cases ran : instruction catalog s with
    | error error u =>
      rw [ran] at ends
      rw [instructions_of_error ran]
      cases ends with
      | error refusal => exact .error refusal
      | excused excuse => exact .excused excuse _
    | ok more u =>
      rw [ran] at ends
      cases ends with
      | ok value state' =>
        subst value
        cases more with
        | false =>
          rw [instructions_of_false ran]
          exact .ok rfl state'
        | true =>
          have shorter := instruction_takes catalog _ _ _ ran
          rw [instructions_of_true ran]
          apply ih _ state'
          unfold wordSize at *
          omega

end Decoder

end SyscallStream
