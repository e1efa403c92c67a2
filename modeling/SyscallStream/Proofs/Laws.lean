import SyscallStream.Proofs.Run
import SyscallStream.Proofs.Steps

/-! Laws of a reading. A property of computations that every step has, and that is kept when
computations follow each other, is a property of reading an instruction. One kind of law is an
invariant of the state together with a reason for every error. -/

namespace SyscallStream

def DecodeError.IsOverflow : DecodeError → Prop
  | .overflow .. => True
  | _ => False

/-- The steps that an argument is read by obey a law that computations keep when they follow each
other. A refusal is judged together with the word that it is about. -/
structure Steps.ObeyInArgs {m : Type → Type} [Monad m] (steps : Steps m)
    (law : {α : Type} → m α → Prop) : Prop where
  pure {α : Type} (a : α) : law (Pure.pure a : m α)
  bind {α β : Type} {step : m α} {next : α → m β} (first : law step)
    (second : ∀ a, law (next a)) : law (step >>= next)
  word : law steps.word
  blob (word : UInt64) : law (steps.blob (DataArg.sizeOfWord word))
  /-- The room that is made for chunks shows in nothing that follows. -/
  room (count : UInt64) {α : Type} (rest : Array Chunk → m α) (later : law (rest #[])) :
    law (steps.reserve count >>= fun buffer => rest buffer.chunks)
  kind {α : Type} {next : UInt64 → m α}
    (known : ∀ word kind, ArgKind.ofWord? word = some kind → law (next word))
    (unknown : ∀ word, ArgKind.ofWord? word = none →
      next word = steps.refuse (.badArgKind word)) : law (steps.word >>= next)
  checksum {α : Type} {next : UInt64 → m α}
    (known : ∀ word kind, ChecksumKind.ofWord? word = some kind → law (next word))
    (unknown : ∀ word, ChecksumKind.ofWord? word = none →
      next word = steps.refuse (.unknownChecksum word)) : law (steps.word >>= next)
  assign (index value : UInt64) : law (steps.assign index value)

structure Steps.Obey {m : Type → Type} [Monad m] (steps : Steps m)
    (law : {α : Type} → m α → Prop) : Prop extends steps.ObeyInArgs law where
  leading {α : Type} {next : UInt64 → m α} {call : Syscall → m α}
    (calls : ∀ syscall, law (call syscall))
    (plain : ∀ word, ¬ IsMarker word →
      next word = steps.commit >>= fun _ => steps.lookup word >>= call)
    (marker : ∀ word, IsMarker word → law (next word)) : law (steps.word >>= next)
  misplaced (position : Nat) {arg : Arg} (compound : arg.isScalar = false) :
    law (steps.finished >>= fun calls =>
      steps.refuse (α := Unit) (.badCallArg calls position arg.kind))
  commit : law steps.commit
  start (syscall : Syscall) (index : UInt64) : law (steps.start syscall index)
  pushArg (arg : Arg) : law (steps.pushArg arg)
  pushCopyin (copyin : Copyin) : law (steps.pushCopyin copyin)
  pushCopyout (copyout : Copyout) : law (steps.pushCopyout copyout)

namespace Steps.ObeyInArgs

variable {m : Type → Type} [Monad m] {steps : Steps m} {law : {α : Type} → m α → Prop}
  (obey : steps.ObeyInArgs law)
include obey

theorem constArg : law steps.constArg :=
  obey.bind obey.word fun _ => obey.bind obey.word fun _ => obey.pure _

theorem resultArg : law steps.resultArg :=
  obey.bind obey.word fun _ => obey.bind obey.word fun _ => obey.bind obey.word fun _ =>
    obey.bind obey.word fun _ => obey.bind obey.word fun _ => obey.pure _

theorem dataArg : law steps.dataArg :=
  obey.bind obey.word fun word => obey.bind (obey.blob word) fun _ => obey.pure _

theorem chunk : law steps.chunk :=
  obey.bind obey.word fun _ => obey.bind obey.word fun _ => obey.bind obey.word fun _ =>
    obey.pure _

theorem chunks (count : Nat) (buffer : ChunkBuffer) : law (steps.chunks count buffer) := by
  induction count generalizing buffer with
  | zero => exact obey.pure _
  | succ count ih => exact obey.bind obey.chunk fun _ => ih _

theorem checksumArg [LawfulMonad m] : law steps.checksumArg := by
  apply obey.bind obey.word
  intro size
  apply obey.checksum
  · intro word kind known
    simp only [known]
    apply obey.bind obey.word
    intro count
    let rest (chunks : Array Chunk) : m ChecksumArg := Pure.pure ⟨size, kind, chunks.toList⟩
    rw [funext fun buffer => steps.chunks_bind count.toNat buffer rest]
    apply obey.room count fun chunks =>
      steps.chunks count.toNat ⟨0, chunks⟩ >>= fun filled => rest filled.chunks
    exact obey.bind (obey.chunks _ _) fun _ => obey.pure _
  · intro word unknown
    simp only [unknown]

theorem arg [LawfulMonad m] : law steps.arg := by
  apply obey.kind
  · intro word kind known
    simp only [known]
    cases kind with
    | const => exact obey.bind obey.constArg fun _ => obey.pure _
    | result => exact obey.bind obey.resultArg fun _ => obey.pure _
    | data => exact obey.bind obey.dataArg fun _ => obey.pure _
    | checksum => exact obey.bind obey.checksumArg fun _ => obey.pure _
  · intro word unknown
    simp only [unknown]

theorem operand [LawfulMonad m] : law steps.operand := by
  apply obey.bind obey.arg
  intro arg
  cases arg with
  | result arg => exact obey.bind (obey.assign _ _) fun _ => obey.pure _
  | _ => exact obey.pure _

end Steps.ObeyInArgs

namespace Steps.Obey

variable {m : Type → Type} [Monad m] {steps : Steps m} {law : {α : Type} → m α → Prop}
  (obey : steps.Obey law)
include obey

theorem operands [LawfulMonad m] (count position : Nat) :
    law (steps.operands count position) := by
  induction count generalizing position with
  | zero => exact obey.pure _
  | succ count ih =>
    apply obey.bind obey.operand
    intro arg
    cases scalar : arg.isScalar with
    | true => exact obey.bind (obey.pushArg arg) fun _ => ih _
    | false => exact obey.misplaced position scalar

theorem instruction [LawfulMonad m] : law steps.instruction := by
  have call (syscall : Syscall) : law (steps.word >>= fun index =>
      steps.start syscall index >>= fun _ => steps.word >>= fun count =>
        steps.operands count.toNat 0 >>= fun _ => Pure.pure true) :=
    obey.bind obey.word fun _ => obey.bind (obey.start _ _) fun _ => obey.bind obey.word
      fun _ => obey.bind (obey.operands _ _) fun _ => obey.pure _
  apply obey.leading call
  · intro word plain
    rw [Opcode.ofWord_eq_call.mpr ⟨rfl, plain⟩]
    simp only [Steps.perform, Steps.call, bind_assoc]
  · intro word marker
    cases opcode : Opcode.ofWord word with
    | stop => exact obey.bind obey.commit fun _ => obey.pure _
    | copyin =>
      exact obey.bind obey.commit fun _ => obey.bind obey.word fun _ =>
        obey.bind obey.operand fun _ => obey.bind (obey.pushCopyin _) fun _ => obey.pure _
    | copyout =>
      exact obey.bind obey.word fun _ => obey.bind obey.word fun _ => obey.bind obey.word
        fun _ => obey.bind (obey.pushCopyout _) fun _ => obey.pure _
    | call id => exact absurd marker (Opcode.ofWord_eq_call.mp opcode).2

end Steps.Obey

/-- The steps obey a law that looks neither at the word that is refused nor at what came before. -/
structure Steps.ObeyPlainly {m : Type → Type} [Monad m] (steps : Steps m)
    (law : {α : Type} → m α → Prop) : Prop where
  pure {α : Type} (a : α) : law (Pure.pure a : m α)
  bind {α β : Type} {step : m α} {next : α → m β} (first : law step)
    (second : ∀ a, law (next a)) : law (step >>= next)
  word : law steps.word
  blob (word : UInt64) : law (steps.blob (DataArg.sizeOfWord word))
  room (count : UInt64) {α : Type} (rest : Array Chunk → m α) (later : law (rest #[])) :
    law (steps.reserve count >>= fun buffer => rest buffer.chunks)
  refuse {α : Type} {error : DecodeError} (other : ¬ error.IsOverflow) :
    law (steps.refuse error : m α)
  lookup (word : UInt64) : law (steps.lookup word)
  assign (index value : UInt64) : law (steps.assign index value)
  commit : law steps.commit
  start (syscall : Syscall) (index : UInt64) : law (steps.start syscall index)
  pushArg (arg : Arg) : law (steps.pushArg arg)
  pushCopyin (copyin : Copyin) : law (steps.pushCopyin copyin)
  pushCopyout (copyout : Copyout) : law (steps.pushCopyout copyout)
  finished : law steps.finished

section Plainly

variable {m : Type → Type} [Monad m] {steps : Steps m} {law : {α : Type} → m α → Prop}
  (plainly : steps.ObeyPlainly law)
include plainly

theorem Steps.ObeyPlainly.named {α κ : Type} {name? : UInt64 → Option κ}
    {refusal : UInt64 → DecodeError} {next : UInt64 → m α}
    (other : ∀ word, ¬ (refusal word).IsOverflow)
    (known : ∀ word name, name? word = some name → law (next word))
    (unknown : ∀ word, name? word = none → next word = steps.refuse (refusal word)) :
    law (steps.word >>= next) := by
  apply plainly.bind plainly.word
  intro word
  cases named : name? word with
  | none =>
    rw [unknown word named]
    exact plainly.refuse (other word)
  | some name => exact known word name named

theorem Steps.ObeyPlainly.obey : steps.Obey law where
  pure := plainly.pure
  bind := plainly.bind
  word := plainly.word
  blob := plainly.blob
  room := plainly.room
  kind := plainly.named fun _ => id
  checksum := plainly.named fun _ => id
  leading := by
    intro α next call calls plain marker
    apply plainly.bind plainly.word
    intro word
    by_cases marked : IsMarker word
    · exact marker word marked
    · rw [plain word marked]
      exact plainly.bind plainly.commit fun _ => plainly.bind (plainly.lookup word) calls
  misplaced _ _ _ := plainly.bind plainly.finished fun _ => plainly.refuse id
  assign := plainly.assign
  commit := plainly.commit
  start := plainly.start
  pushArg := plainly.pushArg
  pushCopyin := plainly.pushCopyin
  pushCopyout := plainly.pushCopyout

end Plainly

section Guards

variable {σ α β : Type} {holds : σ → Prop} {reason : DecodeError → σ → Prop}

def Guarded (holds : σ → Prop) (reason : DecodeError → σ → Prop) :
    EStateM.Result DecodeError σ α → Prop
  | .ok _ s => holds s
  | .error error s => holds s ∧ reason error s

theorem Guarded.imp {result : EStateM.Result DecodeError σ α} {holds' : σ → Prop}
    {reason' : DecodeError → σ → Prop} (guarded : Guarded holds reason result)
    (state : ∀ s, holds s → holds' s) (error : ∀ error s, reason error s → reason' error s) :
    Guarded holds' reason' result := by
  cases result with
  | ok a s => exact state s guarded
  | error failure s => exact ⟨state s guarded.1, error failure s guarded.2⟩

def Guards (holds : σ → Prop) (reason : DecodeError → σ → Prop)
    (step : EStateM DecodeError σ α) : Prop :=
  ∀ s, holds s → Guarded holds reason (step s)

namespace Guards

variable {step : EStateM DecodeError σ α} {next : α → EStateM DecodeError σ β}

theorem pure (a : α) : Guards holds reason (Pure.pure a : EStateM DecodeError σ α) :=
  fun _ held => held

theorem modify {change : σ → σ} (keeps : ∀ s, holds s → holds (change s)) :
    Guards holds reason (modify change : EStateM DecodeError σ Unit) :=
  keeps

theorem andThen {s : σ} (first : Guarded holds reason (step s))
    (second : ∀ a t, step s = .ok a t → holds t → Guarded holds reason (next a t)) :
    Guarded holds reason ((step >>= next) s) := by
  change Guarded holds reason (EStateM.bind step next s)
  unfold EStateM.bind
  cases ran : step s with
  | ok a t =>
    rw [ran] at first
    exact second a t ran first
  | error error t =>
    rw [ran] at first
    exact first

theorem bind (first : Guards holds reason step) (second : ∀ a, Guards holds reason (next a)) :
    Guards holds reason (step >>= next) :=
  fun s held => andThen (first s held) fun a t _ => second a t

end Guards

end Guards

def DecodeError.OffStream : DecodeError → Prop
  | .badSyscall .. | .idMismatch .. | .varIndexTooLarge .. => True
  | _ => False

namespace Decoder

def Rests {α : Type} (step : Decoder α) : Prop :=
  ∀ s, Guarded (fun t => t.cursor = s.cursor) (fun error _ => error.OffStream) (step s)

theorem assign_rests (index value : UInt64) : Rests (assign index value) := by
  intro s
  unfold assign
  split
  · rfl
  · exact ⟨rfl, trivial⟩

theorem commit_rests : Rests commit := by
  intro s
  unfold commit
  split
  · rfl
  · split
    · rename_i refused
      rcases Variables.referenceAll_error refused with ⟨index, rfl, _⟩
      exact ⟨rfl, trivial⟩
    · rfl

theorem lookup_rests (catalog : Catalog) (word : UInt64) : Rests (lookup catalog word) := by
  intro s
  unfold lookup
  cases catalog.entry? word with
  | none => exact ⟨rfl, trivial⟩
  | some syscall =>
    by_cases own : syscall.id = word
    · simp only [own, if_true]
      rfl
    · simp only [own, if_false]
      exact ⟨rfl, trivial⟩

theorem onCursor_guards {α : Type} {holds : State → Prop} {reason : DecodeError → State → Prop}
    {reader : Reader α}
    (reads : ∀ s, holds s → Guarded (fun d => holds { s with cursor := d })
      (fun error d => reason error { s with cursor := d }) (reader s.cursor)) :
    Guards holds reason (onCursor reader) := by
  intro s held
  have outcome := reads s held
  unfold onCursor
  cases ran : reader s.cursor with
  | ok a d =>
    rw [ran] at outcome
    exact outcome
  | error error d =>
    rw [ran] at outcome
    exact outcome

theorem guards_of_named {α κ : Type} {holds : State → Prop} {reason : DecodeError → State → Prop}
    {name? : UInt64 → Option κ} {refusal : UInt64 → DecodeError} {next : UInt64 → Decoder α}
    (word : Guards holds reason (onCursor readWord))
    (because : ∀ s t word, holds s → onCursor readWord s = .ok word t → name? word = none →
      reason (refusal word) t)
    (known : ∀ word name, name? word = some name → Guards holds reason (next word))
    (unknown : ∀ word, name? word = none → next word = throw (refusal word)) :
    Guards holds reason (onCursor readWord >>= next) := by
  intro s held
  apply Guards.andThen (word s held)
  intro word t read after
  cases named : name? word with
  | none =>
    rw [unknown word named]
    exact ⟨after, because s t word held read named⟩
  | some name => exact known word name named t after

theorem readWord_of_step {s t : State} {word : UInt64} (read : onCursor readWord s = .ok word t) :
    readWord s.cursor = .ok word t.cursor := by
  rcases onCursor_eq_ok.mp read with ⟨d, own, rfl⟩
  exact own

/-- Finishing a call leaves the cursor behind the word that was just read. -/
theorem readWord_of_committed {s t : State} {word : UInt64}
    (read : onCursor readWord s = .ok word t) :
    readWord s.cursor = .ok word t.committed.cursor := by
  rw [State.cursor_committed]
  exact readWord_of_step read

theorem guards_instructions {catalog : Catalog} {holds : State → Prop}
    {reason : DecodeError → State → Prop} (step : Guards holds reason (instruction catalog)) :
    Guards holds reason (instructions catalog) := by
  intro s held
  have outcome := step s held
  induction s using instructions.induct catalog with
  | case1 s error t ran =>
    rw [ran] at outcome
    rw [instructions_of_error ran]
    exact outcome
  | case2 s t ran =>
    rw [ran] at outcome
    rw [instructions_of_false ran]
    exact outcome
  | case3 s t ran shorter ih =>
    rw [ran] at outcome
    rw [instructions_of_true ran]
    exact ih outcome (step t outcome)

/-- What makes an invariant hold throughout a run, with a reason for every error. The reason for a
refused word may rest on the state in front of it. -/
structure Guarding (catalog : Catalog) (holds : State → Prop)
    (reason : DecodeError → State → Prop) : Prop where
  word : Guards holds reason (onCursor readWord)
  blob (word : UInt64) : Guards holds reason (onCursor (readBlob (DataArg.sizeOfWord word)))
  kind {s t : State} {word : UInt64} (held : holds s) (read : onCursor readWord s = .ok word t)
    (unknown : ArgKind.ofWord? word = none) : reason (.badArgKind word) t
  checksum {s t : State} {word : UInt64} (held : holds s)
    (read : onCursor readWord s = .ok word t) (unknown : ChecksumKind.ofWord? word = none) :
    reason (.unknownChecksum word) t
  missing {s t : State} {word : UInt64} (held : holds s)
    (read : onCursor readWord s = .ok word t) (plain : ¬ IsMarker word)
    (missing : catalog.entry? word = none) : reason (.badSyscall word catalog.size) t.committed
  foreign {s t : State} {word : UInt64} {syscall : Syscall} (held : holds s)
    (read : onCursor readWord s = .ok word t) (plain : ¬ IsMarker word)
    (found : catalog.entry? word = some syscall) (other : syscall.id ≠ word) :
    reason (.idMismatch word syscall.id) t.committed
  index {s : State} {index : UInt64} (held : holds s) (beyond : s.vars.limit ≤ index) :
    reason (s.vars.refusal index) s
  misplaced {s : State} {arg : Arg} (held : holds s) (position : Nat)
    (compound : arg.isScalar = false) : reason (.badCallArg s.calls.size position arg.kind) s
  committed {s : State} (held : holds s) : holds s.committed
  vars {s : State} (held : holds s) (vars : Variables) : holds { s with vars }
  pending {s : State} (held : holds s) (pending : Pending) : holds { s with pending }

namespace Guarding

variable {catalog : Catalog} {holds : State → Prop} {reason : DecodeError → State → Prop}
  (guarding : Guarding catalog holds reason)
include guarding

theorem assign (index value : UInt64) : Guards holds reason (Decoder.assign index value) := by
  intro s held
  unfold Decoder.assign
  by_cases below : index < s.vars.limit
  · rw [if_pos (Variables.admits_iff.mpr below)]
    exact guarding.vars held _
  · rw [if_neg (mt Variables.admits_iff.mp below)]
    exact ⟨held, guarding.index held (UInt64.not_lt.mp below)⟩

theorem commit : Guards holds reason Decoder.commit := by
  intro s held
  cases ran : Decoder.commit s with
  | ok done t =>
    rcases commit_eq_ok.mp ran with ⟨_, rfl⟩
    exact guarding.committed held
  | error error t =>
    unfold Decoder.commit at ran
    split at ran
    · cases ran
    · split at ran
      · rename_i refused
        cases ran
        rcases Variables.referenceAll_error refused with ⟨index, rfl, beyond⟩
        exact ⟨held, guarding.index held beyond⟩
      · cases ran

theorem lookup {s t : State} {word : UInt64} (held : holds s)
    (read : onCursor readWord s = .ok word t) (plain : ¬ IsMarker word)
    (after : holds t.committed) :
    Guarded holds reason (Decoder.lookup catalog word t.committed) := by
  unfold Decoder.lookup
  cases entry : catalog.entry? word with
  | none => exact ⟨after, guarding.missing held read plain entry⟩
  | some syscall =>
    by_cases own : syscall.id = word
    · simp only [own, if_true]
      exact after
    · simp only [own, if_false]
      exact ⟨after, guarding.foreign held read plain entry own⟩

theorem obey : (Decoder.steps catalog).Obey (Guards holds reason) where
  pure a := .pure a
  bind first second := first.bind second
  word := guarding.word
  blob := guarding.blob
  room _ _ _ later := later
  kind known unknown := guards_of_named guarding.word (fun _ _ _ => guarding.kind) known unknown
  checksum known unknown :=
    guards_of_named guarding.word (fun _ _ _ => guarding.checksum) known unknown
  assign := guarding.assign
  leading := by
    intro α next call calls plain marker s held
    apply Guards.andThen (guarding.word s held)
    intro word t read after
    by_cases marked : IsMarker word
    · exact marker word marked t after
    · rw [plain word marked]
      apply Guards.andThen (guarding.commit t after)
      intro _ u settled kept
      rcases commit_eq_ok.mp settled with ⟨_, rfl⟩
      apply Guards.andThen (guarding.lookup held read marked kept)
      intro syscall v _ kept
      exact calls syscall v kept
  misplaced position _ compound := fun _ held =>
    ⟨held, guarding.misplaced held position compound⟩
  commit := guarding.commit
  start _ _ := .modify fun _ held => guarding.pending held _
  pushArg _ := .modify fun _ held => guarding.pending held _
  pushCopyin _ := .modify fun _ held => guarding.pending held _
  pushCopyout _ := .modify fun _ held => guarding.pending held _

theorem instruction : Guards holds reason (Decoder.instruction catalog) := by
  rw [← instruction_steps]
  exact guarding.obey.instruction

theorem instructions : Guards holds reason (Decoder.instructions catalog) :=
  guards_instructions guarding.instruction

end Guarding

end Decoder

end SyscallStream
