import SyscallStream.Proofs.EventLog

/-! Where a rejection points. A stream that is refused while it is read is refused at a whole word,
and the error tells of what stands right in front of the offset in the log. -/

namespace SyscallStream

def WordBefore (bytes : Bytes) (offset : Nat) (word : UInt64) : Prop :=
  ∃ front rest, bytes = front ++ (Word.toBytes word ++ rest) ∧ offset = front.length + wordSize

/-- The wire form of arguments of a call, `count` of which are announced: scalars, and then one that
is none. -/
inductive StrayArg (count : Nat) : Bytes → Nat → ArgKind → Prop
  | intro {args : List Arg} {arg : Arg} {front last : Bytes} (wires : WireSeq Arg.Wire args front)
      (scalars : ∀ arg ∈ args, arg.isScalar) (announced : args.length < count)
      (wire : arg.Wire last) (compound : arg.kind = .data ∨ arg.kind = .checksum) :
      StrayArg count (front ++ last) args.length arg.kind

/-- Up to an offset stand instructions, `calls` of them calls, and then one more call that ends with
an argument that must not stand on it. -/
inductive Misplaced (bytes : Bytes) (offset calls position : Nat) (kind : ArgKind) : Prop
  | intro {instructions : List Instruction} {wire args rest : Bytes} {word index count : UInt64}
      (split : bytes = wire ++ (encodeWords [word, index, count] ++ args) ++ rest)
      (reached : offset = (wire ++ (encodeWords [word, index, count] ++ args)).length)
      (wires : WireSeq Instruction.Wire instructions wire)
      (plain : ∀ instruction ∈ instructions, instruction.Plain)
      (counted : instructions.countP Instruction.isCall = calls) (own : ¬ IsMarker word)
      (stray : StrayArg count.toNat args position kind)

/-- What an error of a reading says about the stream and the offset that it was found at. -/
def Pinpoints (catalog : Catalog) (bytes : Bytes) (offset : Nat) : DecodeError → Prop
  | .overflow start needed remaining =>
    start = offset ∧ start + remaining = bytes.length ∧ remaining < needed ∧
      wordSize ∣ needed ∧ needed ≤ 0x8000000000000000
  | .badSyscall index count =>
    WordBefore bytes offset index ∧ ¬ IsMarker index ∧ catalog.entry? index = none ∧
      count = catalog.size
  | .idMismatch index id =>
    WordBefore bytes offset index ∧ ¬ IsMarker index ∧
      ∃ syscall, catalog.entry? index = some syscall ∧ syscall.id = id ∧ id ≠ index
  | .badCallArg call arg kind => Misplaced bytes offset call arg kind
  | .badArgKind word => WordBefore bytes offset word ∧ 3 < word
  | .unknownChecksum word => WordBefore bytes offset word ∧ word ≠ 0
  | .varIndexTooLarge index limit => limit ≤ index
  | .varsMismatch .. | .programTooLarge .. | .dangling .. => False

namespace Cursor

structure Stands (bytes : Bytes) (c : Cursor) : Prop where
  rest : c.rest = bytes.drop c.offset
  inside : c.offset ≤ bytes.length
  aligned : wordSize ∣ c.offset

variable {bytes : Bytes} {c d : Cursor}

theorem stands_ofBytes (bytes : Bytes) : (Cursor.ofBytes bytes).Stands bytes :=
  ⟨rfl, Nat.zero_le _, Nat.dvd_zero _⟩

theorem Stands.offset_add_remaining (stands : c.Stands bytes) :
    c.offset + c.remaining = bytes.length := by
  have inside := stands.inside
  rw [c.remaining_eq, stands.rest, List.length_drop]
  omega

theorem Stands.advance (stands : c.Stands bytes) {count : Nat} (whole : wordSize ∣ count)
    (enough : count ≤ c.remaining) : (c.advance count).Stands bytes := by
  have total := stands.offset_add_remaining
  constructor
  · rw [rest_advance, offset_advance, stands.rest, List.drop_drop]
  · rw [offset_advance]
    omega
  · exact Nat.dvd_add stands.aligned whole

theorem Stands.wordBefore (stands : c.Stands bytes) {word : UInt64}
    (read : readWord c = .ok word d) : WordBefore bytes d.offset word := by
  have passes := readWord_eq_ok.mp read
  have before : (bytes.take c.offset).length = c.offset := List.length_take_of_le stands.inside
  refine ⟨bytes.take c.offset, d.rest, ?_, ?_⟩
  · rw [← passes.1, stands.rest, List.take_append_drop]
  · rw [passes.2, Word.length_toBytes, before]

theorem Stands.overflow (stands : c.Stands bytes) {catalog : Catalog} {needed : Nat}
    (short : c.remaining < needed) (whole : wordSize ∣ needed)
    (bounded : needed ≤ 0x8000000000000000) :
    Pinpoints catalog bytes c.offset (c.overflow needed) :=
  ⟨rfl, stands.offset_add_remaining, short, whole, bounded⟩

end Cursor

section Reads

variable {catalog : Catalog} {bytes : Bytes}

theorem Demands.stands {α : Type} {size : Nat} {reader : Reader α} (demands : Demands size reader)
    (whole : wordSize ∣ size) (bounded : size ≤ 0x8000000000000000) :
    Guards (Cursor.Stands bytes) (fun error c => Pinpoints catalog bytes c.offset error)
      reader := by
  intro c stands
  rcases demands c with ⟨enough, a, read⟩ | ⟨short, read⟩
  · rw [read]
    exact stands.advance whole enough
  · rw [read]
    exact ⟨stands, stands.overflow short whole bounded⟩

/-- The size of data leaves out the highest bit, so rounding it up never exceeds that bit. -/
theorem roundUp_sizeOfWord_le (word : UInt64) :
    roundUp (DataArg.sizeOfWord word).toNat ≤ 0x8000000000000000 := by
  have below := DataArg.toNat_sizeOfWord_lt word
  have flag : readableFlag.toNat = 0x8000000000000000 := rfl
  rw [flag] at below
  unfold roundUp
  omega

theorem three_lt_of_unknown {word : UInt64} (unknown : ArgKind.ofWord? word = none) :
    3 < word := by
  have other (kind : ArgKind) : word ≠ kind.word := by
    intro same
    rw [ArgKind.ofWord?_eq_some.mpr same] at unknown
    cases unknown
  have codes : word.toNat ≠ 0 ∧ word.toNat ≠ 1 ∧ word.toNat ≠ 2 ∧ word.toNat ≠ 3 :=
    ⟨fun same => other .const (UInt64.toNat_inj.mp same),
      fun same => other .result (UInt64.toNat_inj.mp same),
      fun same => other .data (UInt64.toNat_inj.mp same),
      fun same => other .checksum (UInt64.toNat_inj.mp same)⟩
  rw [UInt64.lt_iff_toNat_lt]
  change 3 < word.toNat
  omega

theorem ne_zero_of_unknown {word : UInt64} (unknown : ChecksumKind.ofWord? word = none) :
    word ≠ 0 := by
  rintro rfl
  cases unknown

end Reads

theorem compound_of_not_scalar {arg : Arg} (compound : ¬ arg.isScalar) :
    arg.kind = .data ∨ arg.kind = .checksum := by
  cases arg with
  | const | result => exact absurd rfl compound
  | data => exact .inl rfl
  | checksum => exact .inr rfl

def DecodeError.IsMisplaced : DecodeError → Prop
  | .badCallArg .. => True
  | _ => False

namespace Decoder

section Places

variable {catalog : Catalog} {bytes : Bytes}

/-- An error that is told of a place in the stream. What is wrong with an argument of a call shows
only together with the instructions in front of it. -/
def Located (catalog : Catalog) (bytes : Bytes) (error : DecodeError) (s : State) : Prop :=
  ¬ error.IsMisplaced → Pinpoints catalog bytes s.cursor.offset error

theorem onCursor_stands {α : Type} {reader : Reader α}
    (stands : Guards (Cursor.Stands bytes)
      (fun error c => Pinpoints catalog bytes c.offset error) reader) :
    Guards (fun s => s.cursor.Stands bytes) (Located catalog bytes) (onCursor reader) := by
  apply onCursor_guards
  intro s held
  exact (stands s.cursor held).imp (fun _ => id) fun _ _ pinpoints _ => pinpoints

theorem guarding_stands (catalog : Catalog) (bytes : Bytes) :
    Guarding catalog (fun s => s.cursor.Stands bytes) (Located catalog bytes) where
  word := onCursor_stands (readWord_demands.stands (Nat.dvd_refl _) (by decide))
  blob word := by
    have demands := readBlob_demands (DataArg.toNat_sizeOfWord_add_lt word)
    have whole := Nat.dvd_of_mod_eq_zero (roundUp_mod (DataArg.sizeOfWord word).toNat)
    exact onCursor_stands (demands.stands whole (roundUp_sizeOfWord_le word))
  kind stands read unknown _ :=
    ⟨stands.wordBefore (readWord_of_step read), three_lt_of_unknown unknown⟩
  checksum stands read unknown _ :=
    ⟨stands.wordBefore (readWord_of_step read), ne_zero_of_unknown unknown⟩
  missing stands read plain missing _ :=
    ⟨stands.wordBefore (readWord_of_committed read), plain, missing, rfl⟩
  foreign stands read plain found other _ :=
    ⟨stands.wordBefore (readWord_of_committed read), plain, _, found, rfl, other⟩
  index _ beyond _ := beyond
  misplaced _ _ _ other := absurd trivial other
  committed {s} stands := by
    rw [State.cursor_committed]
    exact stands
  vars stands _ := stands
  pending stands _ := stands

end Places

section Silent

variable {catalog : Catalog} {s t : State} {call position : Nat} {kind : ArgKind}

abbrev Silent {α : Type} (step : Decoder α) : Prop :=
  Guards (fun _ => True) (fun error _ => ¬ error.IsMisplaced) step

theorem Silent.ne_error {α : Type} {step : Decoder α} (silent : Silent step) :
    step s ≠ .error (.badCallArg call position kind) t := by
  intro ran
  have outcome := silent s trivial
  rw [ran] at outcome
  exact outcome.2 trivial

/-- Where a step is silent, the blame comes from what follows it. -/
theorem Silent.error_of_bind {α β : Type} {step : Decoder α} {next : α → Decoder β}
    (silent : Silent step)
    (ran : (step >>= next) s = .error (.badCallArg call position kind) t) :
    ∃ a u, step s = .ok a u ∧ next a u = .error (.badCallArg call position kind) t :=
  (bind_eq_error.mp ran).resolve_left silent.ne_error

theorem onCursor_silent {α : Type} {reader : Reader α} (explains : Explains reader) :
    Silent (onCursor reader) := by
  apply onCursor_guards
  intro s _
  apply (explains s.cursor trivial).imp (fun _ _ => trivial)
  intro error d stuck
  cases stuck <;> exact id

theorem word_silent : Silent (onCursor readWord) := onCursor_silent readWord_demands.explains

theorem Rests.silent {α : Type} {step : Decoder α} (rests : Rests step) : Silent step := by
  intro s _
  apply (rests s).imp (fun _ _ => trivial)
  intro error _ off
  cases error with
  | badCallArg call arg kind => exact off.elim
  | _ => exact id

theorem obeyInArgs_silent (catalog : Catalog) : (steps catalog).ObeyInArgs Silent where
  pure a := .pure a
  bind first second := first.bind second
  word := word_silent
  blob word := onCursor_silent (readBlob_demands (DataArg.toNat_sizeOfWord_add_lt word)).explains
  room _ _ _ later := later
  kind known unknown := guards_of_named word_silent (fun _ _ _ _ _ _ => id) known unknown
  checksum known unknown := guards_of_named word_silent (fun _ _ _ _ _ _ => id) known unknown
  assign index value := (assign_rests index value).silent

theorem operand_silent : Silent operand := by
  -- No catalog is looked at for an argument.
  rw [← @operand_steps ⟨0, fun _ => none⟩]
  exact (obeyInArgs_silent _).operand

end Silent

section Misplaced

variable {catalog : Catalog} {s t : State} {calls position : Nat} {kind : ArgKind}

theorem operands_misplaced {count start : Nat}
    (ran : operands count start s = .error (.badCallArg calls position kind) t) :
    calls = s.calls.size ∧ ∃ bytes before, position = start + before ∧
      s.cursor.Passes bytes t.cursor ∧ StrayArg count bytes before kind := by
  induction count generalizing start s with
  | zero => cases ran
  | succ count ih =>
    rcases operand_silent.error_of_bind ran with ⟨arg, u, read, later⟩
    rcases operand_eq_ok.mp read with ⟨form, d, wire, passes, _, rfl⟩
    by_cases scalar : arg.isScalar
    · rw [if_pos scalar] at later
      rcases ih later with ⟨finished, bytes, before, rfl, rest, stray⟩
      cases stray with
      | @intro args arg' front last wires scalars announced wire' compound =>
        refine ⟨finished, form ++ (front ++ last), args.length + 1, by omega, ?_, ?_⟩
        · exact Cursor.passes_append.mpr ⟨d, passes, rest⟩
        · have longer : WireSeq Arg.Wire (arg :: args) (form ++ front) := .cons wire wires
          rw [← List.append_assoc]
          exact .intro longer (List.forall_mem_cons.mpr ⟨scalar, scalars⟩)
            (Nat.succ_lt_succ announced) wire' compound
    · rw [if_neg scalar] at later
      cases later
      exact ⟨rfl, form, 0, rfl, passes, .intro .nil (List.forall_mem_nil _) (Nat.succ_pos count)
        wire (compound_of_not_scalar scalar)⟩

theorem call_misplaced {word : UInt64}
    (ran : call catalog word s = .error (.badCallArg calls position kind) t) :
    calls = s.calls.size ∧ ∃ index count args,
      s.cursor.Passes (encodeWords [index, count] ++ args) t.cursor ∧
      StrayArg count.toNat args position kind := by
  rcases (lookup_rests catalog word).silent.error_of_bind ran with ⟨syscall, _, found, ran⟩
  rcases lookup_eq_ok.mp found with ⟨_, rfl⟩
  rcases word_silent.error_of_bind ran with ⟨index, _, read, ran⟩
  rcases onCursor_eq_ok.mp read with ⟨c, first, rfl⟩
  have started : Silent (start syscall index) := .modify fun _ _ => trivial
  rcases started.error_of_bind ran with ⟨_, _, begun, ran⟩
  obtain rfl := modify_eq_ok.mp begun
  rcases word_silent.error_of_bind ran with ⟨count, _, read, ran⟩
  rcases onCursor_eq_ok.mp read with ⟨d, second, rfl⟩
  rcases operands_misplaced ran with ⟨finished, args, before, reached, rest, stray⟩
  obtain rfl : position = before := by omega
  refine ⟨finished, index, count, args, ?_, stray⟩
  apply Cursor.passes_encodeWords_cons_append.mpr
  refine ⟨c, readWord_eq_ok.mp first, ?_⟩
  apply Cursor.passes_encodeWords_cons_append.mpr
  exact ⟨d, readWord_eq_ok.mp second, rest⟩

/-- Only the arguments of a call are blamed, so the word in front of them belongs to a call. -/
theorem instruction_misplaced
    (ran : instruction catalog s = .error (.badCallArg calls position kind) t) :
    calls = s.committed.calls.size ∧ ∃ word index count args, ¬ IsMarker word ∧
      s.cursor.Passes (encodeWords [word, index, count] ++ args) t.cursor ∧
      StrayArg count.toNat args position kind := by
  rcases word_silent.error_of_bind ran with ⟨word, u, read, later⟩
  rcases onCursor_eq_ok.mp read with ⟨c, first, rfl⟩
  cases opcode : Opcode.ofWord word with
  | stop =>
    simp only [opcode] at later
    rcases commit_rests.silent.error_of_bind later with ⟨_, _, _, later⟩
    cases later
  | copyin =>
    simp only [opcode] at later
    rcases commit_rests.silent.error_of_bind later with ⟨_, _, _, later⟩
    rcases word_silent.error_of_bind later with ⟨_, _, _, later⟩
    rcases operand_silent.error_of_bind later with ⟨_, _, _, later⟩
    cases later
  | copyout =>
    simp only [opcode] at later
    rcases word_silent.error_of_bind later with ⟨_, _, _, later⟩
    rcases word_silent.error_of_bind later with ⟨_, _, _, later⟩
    rcases word_silent.error_of_bind later with ⟨_, _, _, later⟩
    cases later
  | call id =>
    rcases Opcode.ofWord_eq_call.mp opcode with ⟨rfl, plain⟩
    simp only [opcode] at later
    rcases commit_rests.silent.error_of_bind later with ⟨_, _, settled, later⟩
    rcases commit_eq_ok.mp settled with ⟨_, rfl⟩
    have ran : call catalog word (State.committed { s with cursor := c }) = _ :=
      (bind_eq_error.mp later).resolve_right nofun
    rcases call_misplaced ran with ⟨finished, index, count, args, rest, stray⟩
    rw [State.committed_cursor] at finished rest
    refine ⟨finished, word, index, count, args, plain, ?_, stray⟩
    apply Cursor.passes_encodeWords_cons_append.mpr
    exact ⟨c, readWord_eq_ok.mp first, rest⟩

/-- A run that breaks off has let some instructions through and breaks off in the next one. -/
theorem breaks_of_instructions {error : DecodeError}
    (run : instructions catalog s = .error error t) :
    ∃ list wire d, WireSeq Instruction.Wire list wire ∧ s.cursor.Passes wire d ∧
      (∀ instruction ∈ list, instruction.Legal catalog s.vars.limit) ∧
      instruction catalog { s.takeAll catalog list with cursor := d } = .error error t := by
  induction s using instructions.induct catalog with
  | case1 s error' u ran =>
    rw [instructions_of_error ran] at run
    cases run
    exact ⟨[], [], s.cursor, .nil, Cursor.passes_nil.mpr rfl, List.forall_mem_nil _, ran⟩
  | case2 s u ran =>
    rw [instructions_of_false ran] at run
    cases run
  | case3 s u ran shorter ih =>
    rw [instructions_of_true ran] at run
    rcases ih run with ⟨list, back, d, wires, rest, legal, broken⟩
    rcases instruction_eq_true.mp ran with ⟨instruction, front, v, wire, first, allowed, rfl⟩
    refine ⟨instruction :: list, front ++ back, d, .cons wire wires, ?_, ?_, ?_⟩
    · exact Cursor.passes_append.mpr ⟨v, first, rest⟩
    · exact List.forall_mem_cons.mpr ⟨allowed.legal, State.limit_take catalog s _ ▸ legal⟩
    · rw [State.takeAll_cursor] at broken
      exact broken

end Misplaced

end Decoder

theorem misplaced_of_instructions {catalog : Catalog} {limits : Limits} {bytes : Bytes} {s : State}
    {calls position : Nat} {kind : ArgKind}
    (run : Decoder.instructions catalog (.initial limits bytes) =
      .error (.badCallArg calls position kind) s) :
    Misplaced bytes s.cursor.offset calls position kind := by
  rcases Decoder.breaks_of_instructions run with ⟨list, wire, d, wires, passes, legal, broken⟩
  rcases Decoder.instruction_misplaced broken with
    ⟨finished, word, index, count, args, plain, rest, stray⟩
  rw [State.committed_cursor] at finished
  have whole := Cursor.passes_append.mpr ⟨d, passes, rest⟩
  refine .intro whole.1 ?_ wires ?_ ?_ plain stray
  · exact whole.2.trans (Nat.zero_add _)
  · intro instruction member
    rw [Instruction.plain_iff]
    intro word index args own
    exact ((legal instruction member).call word index args own).1
  · rw [finished]
    exact (size_calls_committed legal).symm

/-- A refusal while a stream is read points at a whole word, and the error tells of what stands in
front of it: too few bytes, a word without a meaning, or an argument at the wrong place. -/
theorem rejection_pinpoints (catalog : Catalog) (limits : Limits) (bytes : Bytes)
    (error : DecodeError) (refused : decode catalog limits bytes = .error error)
    (amid : ¬ error.AtEnd) (sized : ∀ size limit, error ≠ .programTooLarge size limit) :
    ∃ offset, (decodeWithLog catalog limits bytes).log.getLast? =
        some (.rejected error (some offset) bytes.length) ∧
      wordSize ∣ offset ∧ offset ≤ bytes.length ∧ Pinpoints catalog bytes offset error := by
  have small : bytes.length ≤ limits.maxBytes.toNat := by
    by_contra large
    rw [decode_too_large (by omega)] at refused
    exact sized _ _ (Except.error.inj refused).symm
  rw [decode_eq_verdict small] at refused
  cases run : Decoder.instructions catalog (.initial limits bytes) with
  | ok done s =>
    rw [run] at refused
    exact absurd (State.atEnd_of_finish refused) amid
  | error other s =>
    rw [run] at refused
    cases refused
    have outcome := (Decoder.guarding_stands catalog bytes).instructions
      (.initial limits bytes) (Cursor.stands_ofBytes bytes)
    rw [run] at outcome
    rcases outcome with ⟨stands, located⟩
    refine ⟨s.cursor.offset, ?_, stands.aligned, stands.inside, ?_⟩
    · rw [(log_of_error small run).1, List.getLast?_append]
      rfl
    · cases error with
      | badCallArg calls position kind => exact misplaced_of_instructions run
      | _ => exact located id

def boundlessData : Bytes := encodeWords [copyinWord, 16, 2, 0x7fffffffffffffff]

def kindlessArg : Bytes := encodeWords [0, noResult, 1, 4]

theorem rejection_pinpoints_samples :
    (decode sampleCatalog {} boundlessData = .error (.overflow 32 0x8000000000000000 0) ∧
      (decodeWithLog sampleCatalog {} boundlessData).log.getLast? =
        some (.rejected (.overflow 32 0x8000000000000000 0) (some 32) 32)) ∧
    (decode sampleCatalog {} kindlessArg = .error (.badArgKind 4) ∧
      ∃ offset, (decodeWithLog sampleCatalog {} kindlessArg).log.getLast? =
        some (.rejected (.badArgKind 4) (some offset) 32) ∧ WordBefore kindlessArg offset 4) ∧
    (decode sampleCatalog {} misplacedData = .error (.badCallArg 1 0 .data) ∧
      ∃ offset, (decodeWithLog sampleCatalog {} misplacedData).log.getLast? =
        some (.rejected (.badCallArg 1 0 .data) (some offset) 64) ∧
        Misplaced misplacedData offset 1 0 .data) := by
  have boundless : decode sampleCatalog {} boundlessData =
      .error (.overflow 32 0x8000000000000000 0) := by
    decide +kernel
  have kindless : decode sampleCatalog {} kindlessArg = .error (.badArgKind 4) := by
    decide +kernel
  have misplaced : decode sampleCatalog {} misplacedData = .error (.badCallArg 1 0 .data) := by
    decide +kernel
  refine ⟨⟨boundless, ?_⟩, ⟨kindless, ?_⟩, misplaced, ?_⟩
  · rcases rejection_pinpoints sampleCatalog {} boundlessData _ boundless id nofun with
      ⟨offset, log, _, _, rfl, _⟩
    exact log
  · rcases rejection_pinpoints sampleCatalog {} kindlessArg _ kindless id nofun with
      ⟨offset, log, _, _, place, _⟩
    exact ⟨offset, log, place⟩
  · rcases rejection_pinpoints sampleCatalog {} misplacedData _ misplaced id nofun with
      ⟨offset, log, _, _, place⟩
    exact ⟨offset, log, place⟩

end SyscallStream
