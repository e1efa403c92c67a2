import SyscallStream.Proofs.Grammar
import SyscallStream.Proofs.Spelling

/-! Encoding a decoded program. It takes as many bytes as were read. It gives back the stream
exactly if nothing follows the stop word, the bits that reading leaves out are zero, and every
copyout stands behind its call. -/

namespace SyscallStream

section Sizes

theorem dvd_length_encodeWords (words : List UInt64) :
    wordSize ∣ (encodeWords words).length := by
  rw [length_encodeWords]
  exact Nat.dvd_mul_left wordSize words.length

theorem dvd_length_flatMap {α : Type} {encode : α → Bytes}
    (whole : ∀ item, wordSize ∣ (encode item).length) (items : List α) :
    wordSize ∣ (items.flatMap encode).length := by
  induction items with
  | nil => exact Nat.dvd_zero _
  | cons item items ih =>
    rw [List.flatMap_cons, List.length_append]
    exact Nat.dvd_add (whole item) ih

theorem Arg.dvd_length_encode (arg : Arg) : wordSize ∣ arg.encode.length := by
  cases arg with
  | const arg => exact dvd_length_encodeWords _
  | result arg => exact dvd_length_encodeWords _
  | data arg =>
    have padded : wordSize ∣ (arg.bytes ++ padding arg.bytes.length).length := by
      rw [List.length_append, length_padding]
      exact Nat.dvd_of_mod_eq_zero (roundUp_mod _)
    rw [Arg.encode, List.length_append]
    exact Nat.dvd_add (dvd_length_encodeWords _) padded
  | checksum arg =>
    rw [Arg.encode, List.length_append]
    exact Nat.dvd_add (dvd_length_encodeWords _)
      (dvd_length_flatMap (fun _ => dvd_length_encodeWords _) _)

theorem Instruction.dvd_length_encode (instruction : Instruction) :
    wordSize ∣ instruction.encode.length := by
  cases instruction with
  | copyin input =>
    rw [Instruction.encode, Copyin.encode, List.length_append]
    exact Nat.dvd_add (dvd_length_encodeWords _) input.arg.dvd_length_encode
  | copyout output => exact dvd_length_encodeWords _
  | call word index args =>
    rw [Instruction.encode, List.length_append]
    exact Nat.dvd_add (dvd_length_encodeWords _) (dvd_length_flatMap Arg.dvd_length_encode _)

theorem Program.dvd_length_encode (program : Program) : wordSize ∣ program.encode.length := by
  rw [Program.encode_eq, List.length_append]
  apply Nat.dvd_add
  · exact dvd_length_flatMap Instruction.dvd_length_encode _
  · simp only [Word.length_toBytes, Nat.dvd_refl]

end Sizes

/-- The second word of an argument; the layout of a result. -/
def secondWord (form : Bytes) : UInt64 := Word.ofBytes ((form.drop wordSize).take wordSize)

/-- The bits of an argument that reading leaves out are zero: the bytes behind data, and what stands
above size and format in the layout of a result. -/
def Arg.UnreadZero : Arg → Bytes → Prop
  | .data arg, form => ∀ byte ∈ form.drop (2 * wordSize + arg.bytes.length), byte = 0
  | .result _, form => secondWord form >>> 16 = 0
  | .const _, _ | .checksum _, _ => True

section Unread

theorem secondWord_encodeWords (first second : UInt64) (words : List UInt64) :
    secondWord (encodeWords (first :: second :: words)) = second := by
  have start : encodeWords (first :: second :: words) =
      Word.toBytes first ++ (Word.toBytes second ++ encodeWords words) := by
    simp [encodeWords]
  rw [secondWord, start, List.drop_left' (Word.length_toBytes first),
    List.take_left' (Word.length_toBytes second), Word.ofBytes_toBytes]

theorem shiftRight_eq_zero_iff (word : UInt64) : word >>> 16 = 0 ↔ word % 0x10000 = word := by
  have bound := word.toNat_lt
  have width : (0x10000 : UInt64).toNat = 0x10000 := rfl
  have places : (16 : UInt64).toNat % 64 = 16 := rfl
  rw [← UInt64.toNat_inj, ← UInt64.toNat_inj, UInt64.toNat_shiftRight, places,
    Nat.shiftRight_eq_div_pow, UInt64.toNat_mod, width]
  change word.toNat / 65536 = 0 ↔ _
  omega

theorem eq_padding_iff {filler : Bytes} {size : Nat}
    (fills : size + filler.length = roundUp size) :
    filler = padding size ↔ ∀ byte ∈ filler, byte = 0 := by
  have count : filler.length = roundUp size - size := by omega
  rw [padding, List.eq_replicate_iff]
  exact and_iff_right count

theorem Arg.Wire.eq_encode_iff {arg : Arg} {form : Bytes} (wire : arg.Wire form) :
    form = arg.encode ↔ arg.UnreadZero form := by
  cases wire with
  | const arg => exact iff_of_true rfl trivial
  | result arg layout agrees =>
    rw [Arg.UnreadZero, secondWord_encodeWords, shiftRight_eq_zero_iff, agrees]
    constructor
    · intro same
      have second := congrArg secondWord same
      rw [secondWord_encodeWords, Arg.encode, secondWord_encodeWords] at second
      exact second.symm
    · intro same
      rw [Arg.encode, same]
  | data arg filler short fills =>
    have behind : (encodeWords [ArgKind.data.word, arg.sizeWord] ++ (arg.bytes ++ filler)).drop
        (2 * wordSize + arg.bytes.length) = filler := by
      rw [← List.append_assoc]
      apply List.drop_left'
      rw [List.length_append, length_encodeWords]
      rfl
    rw [Arg.UnreadZero, behind, ← eq_padding_iff fills, Arg.encode, List.append_right_inj,
      List.append_right_inj]
  | checksum arg counted => exact iff_of_true rfl trivial

theorem forms_eq_map_iff {args : List Arg} {forms : List Bytes}
    (wires : List.Forall₂ Arg.Wire args forms) :
    forms = args.map Arg.encode ↔ ∀ item ∈ args.zip forms, item.1.UnreadZero item.2 := by
  induction wires with
  | nil => exact iff_of_true rfl (List.forall_mem_nil _)
  | cons wire _ ih =>
    rw [List.map_cons, List.cons.injEq, wire.eq_encode_iff, ih, List.zip_cons_cons,
      List.forall_mem_cons]

theorem Spelling.Valid.eq_spelled_iff {spelling : Spelling} (valid : spelling.Valid) :
    spelling = spelling.instruction.spelled ↔
      ∀ item ∈ spelling.arguments, item.1.UnreadZero item.2 := by
  rw [Spelling.arguments, ← forms_eq_map_iff valid.forms]
  constructor
  · intro same
    exact congrArg Spelling.forms same
  · intro same
    calc
      spelling = ⟨spelling.instruction, spelling.forms⟩ := rfl
      _ = spelling.instruction.spelled := by
        rw [same]
        rfl

end Unread

def CopyoutsFollow (instructions : List Instruction) : Prop :=
  ∀ position output, instructions[position]? = some (.copyout output) →
    (Instruction.copyout output).owner (instructions.take position) <
      (instructions.take position).countP Instruction.isCall

section Order

variable {catalog : Catalog} {limit : UInt64} {instructions before : List Instruction}

theorem owner_lt_iff (output : Copyout) :
    (Instruction.copyout output).owner before < before.countP Instruction.isCall ↔
      callOpen before = true := by
  rw [Instruction.owner]
  by_cases opened : callOpen before = true
  · have some : 0 < before.countP Instruction.isCall :=
      List.countP_pos_iff.mpr (callOpen_iff.mp opened).1
    rw [if_pos opened]
    exact iff_of_true (by omega) opened
  · rw [if_neg opened]
    exact iff_of_false (Nat.lt_irrefl _) opened

theorem copyoutsFollow_append_singleton (before : List Instruction) (instruction : Instruction) :
    CopyoutsFollow (before ++ [instruction]) ↔ CopyoutsFollow before ∧
      ∀ output, instruction = .copyout output → callOpen before = true := by
  constructor
  · intro follow
    constructor
    · intro position output found
      have inside := (List.getElem?_eq_some_iff.mp found).1
      have behind := follow position output (by rw [List.getElem?_append_left inside, found])
      rw [List.take_append_of_le_length (Nat.le_of_lt inside)] at behind
      exact behind
    · intro output same
      have behind := follow before.length output (by rw [List.getElem?_concat_length, same])
      rw [List.take_left] at behind
      exact (owner_lt_iff output).mp behind
  · intro given position output found
    rcases given with ⟨follow, last⟩
    rcases Nat.lt_or_ge position before.length with inside | beyond
    · rw [List.getElem?_append_left inside] at found
      rw [List.take_append_of_le_length (Nat.le_of_lt inside)]
      exact follow position output found
    · have bound := (List.getElem?_eq_some_iff.mp found).1
      rw [List.length_append, List.length_singleton] at bound
      obtain rfl : position = before.length := by omega
      rw [List.getElem?_concat_length, Option.some.injEq] at found
      rw [List.take_left]
      exact (owner_lt_iff output).mpr (last output found)

theorem copyoutsFollow_copyins (follow : CopyoutsFollow before) (inputs : List Copyin) :
    CopyoutsFollow (before ++ inputs.map .copyin) := by
  induction inputs generalizing before with
  | nil => simpa using follow
  | cons input inputs ih =>
    rw [List.map_cons, List.append_cons]
    exact ih ((copyoutsFollow_append_singleton _ _).mpr ⟨follow, nofun⟩)

theorem copyoutsFollow_copyouts (follow : CopyoutsFollow before)
    (opened : callOpen before = true) (outputs : List Copyout) :
    CopyoutsFollow (before ++ outputs.map .copyout) := by
  induction outputs generalizing before with
  | nil => simpa using follow
  | cons output outputs ih =>
    rw [List.map_cons, List.append_cons]
    apply ih
    · exact (copyoutsFollow_append_singleton _ _).mpr ⟨follow, fun _ _ => opened⟩
    · rw [callOpen_append_singleton]
      exact opened

theorem Program.copyoutsFollow (program : Program) : CopyoutsFollow program.instructions := by
  rw [Program.instructions]
  induction program.calls using List.reverseRecOn with
  | nil =>
    intro position output found
    cases found
  | append_singleton calls call ih =>
    have started : CopyoutsFollow (calls.flatMap Call.instructions ++ call.copyin.map .copyin ++
        [.call call.syscall.id call.index call.args]) :=
      (copyoutsFollow_append_singleton _ _).mpr ⟨copyoutsFollow_copyins ih _, by simp⟩
    have opened : callOpen (calls.flatMap Call.instructions ++ call.copyin.map .copyin ++
        [.call call.syscall.id call.index call.args]) = true := by
      rw [callOpen_append_singleton]
      rfl
    have whole := copyoutsFollow_copyouts started opened call.copyout
    rw [List.flatMap_append, List.flatMap_singleton, Call.instructions]
    simpa using whole

/-- Instructions are put together in the order in which they come, as long as every copyout finds
its call. -/
theorem Assembly.parts_add_of_follow {a : Assembly} {instruction : Instruction}
    (mirrors : a.Mirrors before) (legal : instruction.Legal catalog limit)
    (idle : a.copyout = [])
    (follows : ∀ output, instruction = .copyout output → callOpen before = true) :
    (a.add catalog instruction).parts = a.parts ++ [instruction] ∧
      (a.add catalog instruction).copyout = [] := by
  cases instruction with
  | copyin input =>
    refine ⟨?_, idle⟩
    simp [add, parts, close, calls, idle]
  | copyout output =>
    have opened := follows output rfl
    have complete := mirrors.complete.mpr (.inl opened)
    rw [← mirrors.isOpen] at opened
    obtain ⟨call, current⟩ := Option.isSome_iff_exists.mp opened
    constructor
    · simp [add, parts, calls, current, complete.1, complete.2, Call.instructions]
    · simp only [add, current, idle]
  | call word index args =>
    rcases entry_of_legal legal with ⟨syscall, found, rfl⟩
    refine ⟨?_, rfl⟩
    simp [add, parts, calls, found, idle, Call.instructions]

theorem parts_assemble (legal : ∀ instruction ∈ instructions, instruction.Legal catalog limit)
    (follow : CopyoutsFollow instructions) :
    (assemble catalog instructions).parts = instructions ∧
      (assemble catalog instructions).copyout = [] := by
  induction instructions using List.reverseRecOn with
  | nil => exact ⟨rfl, rfl⟩
  | append_singleton before instruction ih =>
    rw [List.forall_mem_append, List.forall_mem_singleton] at legal
    rw [copyoutsFollow_append_singleton] at follow
    rcases ih legal.1 follow.1 with ⟨parts, idle⟩
    have added : assemble catalog (before ++ [instruction]) =
        (assemble catalog before).add catalog instruction := Assembly.addAll_append before _
    have step := Assembly.parts_add_of_follow (mirrors_assemble legal.1) legal.2 idle follow.2
    rw [added, step.1, parts]
    exact ⟨rfl, step.2⟩

/-- A program has its instructions in the order of the stream exactly if every copyout stands behind
its call. -/
theorem instructions_eq_iff {program : Program}
    (legal : ∀ instruction ∈ instructions, instruction.Legal catalog limit)
    (complete : (assemble catalog instructions).Complete)
    (built : program.calls = (assemble catalog instructions).calls) :
    program.instructions = instructions ↔ CopyoutsFollow instructions := by
  constructor
  · intro same
    rw [← same]
    exact program.copyoutsFollow
  · intro follow
    have parts := (parts_assemble legal follow).1
    rw [Assembly.parts, complete.1, complete.2, ← built] at parts
    simpa [Program.instructions] using parts

end Order

structure Canonical (spellings : List Spelling) (rest : Bytes) : Prop where
  ends : rest = []
  unread : ∀ spelling ∈ spellings, ∀ item ∈ spelling.arguments, item.1.UnreadZero item.2
  copyouts : CopyoutsFollow (spellings.map Spelling.instruction)

section Reencoding

variable {catalog : Catalog} {limits : Limits} {limit : UInt64} {bytes rest : Bytes}
  {spellings : List Spelling} {program : Program}

theorem map_spelled_eq_iff (valid : ∀ spelling ∈ spellings, spelling.Valid) :
    (spellings.map Spelling.instruction).map Instruction.spelled = spellings ↔
      ∀ spelling ∈ spellings, ∀ item ∈ spelling.arguments, item.1.UnreadZero item.2 := by
  induction spellings with
  | nil => exact iff_of_true rfl (List.forall_mem_nil _)
  | cons spelling spellings ih =>
    rw [List.forall_mem_cons] at valid
    rw [List.map_cons, List.map_cons, List.cons.injEq, eq_comm, valid.1.eq_spelled_iff,
      ih valid.2, List.forall_mem_cons]

/-- What an accepted stream consists of: the run ends behind the stop word, and the instructions
before it make up the program. -/
theorem reading_of_decode (accepted : decode catalog limits bytes = .ok program) :
    ∃ s spellings, Decoder.instructions catalog (.initial limits bytes) = .ok () s ∧
      program.encode.length = s.cursor.offset ∧
      Reading bytes spellings s.cursor.rest ∧
      (∀ instruction ∈ spellings.map Spelling.instruction,
        instruction.Legal catalog limits.maxVars) ∧
      (assemble catalog (spellings.map Spelling.instruction)).Complete ∧
      program.calls = (assemble catalog (spellings.map Spelling.instruction)).calls := by
  rcases decode_eq_ok_iff_instructions.mp accepted with ⟨_, s, run, finished⟩
  rcases Decoder.wire_of_instructions run with ⟨list, wire, d, wires, passes, allows, rfl⟩
  have legal := (allowsAll_initial_iff.mp allows).1
  rcases (finish_run_eq_ok_iff allows).mp finished with ⟨complete, built, _⟩
  have length : program.encode.length = d.offset := by
    rw [length_encode_of_wires wires legal complete built, passes.2]
    exact (Nat.zero_add _).symm
  have plain : ∀ instruction ∈ list, instruction.Plain := by
    intro instruction member
    apply Instruction.plain_iff.mpr
    intro word index args equal
    exact ((legal instruction member).call word index args equal).1
  rcases exists_spellings wires plain with ⟨spellings, rfl, valid, rfl⟩
  have split : bytes = spellings.flatMap Spelling.bytes ++ (Word.toBytes stopWord ++ d.rest) := by
    rw [← List.append_assoc]
    exact passes.1
  exact ⟨_, spellings, run, length, ⟨split, valid⟩, legal, complete, built⟩

theorem encode_eq_iff_canonical (reading : Reading bytes spellings rest)
    (legal : ∀ instruction ∈ spellings.map Spelling.instruction, instruction.Legal catalog limit)
    (complete : (assemble catalog (spellings.map Spelling.instruction)).Complete)
    (built : program.calls = (assemble catalog (spellings.map Spelling.instruction)).calls) :
    program.encode = bytes ↔ Canonical spellings rest := by
  have perm := instructions_perm legal complete built
  have valid : ∀ instruction ∈ program.instructions, instruction.spelled.Valid := by
    intro instruction member
    rcases List.mem_map.mp (perm.mem_iff.mp member) with ⟨spelling, inside, rfl⟩
    exact (reading.valid spelling inside).canonical
  have encoded := Program.reading_encode valid
  have order := instructions_eq_iff legal complete built
  have unread := map_spelled_eq_iff reading.valid
  constructor
  · -- The stream is read in one way, so its spellings are those of the program.
    intro same
    rw [same, ← List.append_nil bytes] at encoded
    rcases reading.unique encoded with ⟨spelled, behind⟩
    have instructions : spellings.map Spelling.instruction = program.instructions := by
      rw [spelled, List.map_map]
      exact List.map_id _
    rw [List.append_nil] at behind
    refine ⟨behind, unread.mp ?_, order.mp instructions.symm⟩
    rw [instructions, spelled]
  · intro canonical
    rw [encoded.split, order.mpr canonical.copyouts, unread.mpr canonical.unread, reading.split,
      canonical.ends]

end Reencoding

/-- Encoding a decoded program gives as many bytes as the decoding has read, and it gives back the
stream exactly if the stream is canonical. The instructions of the stream and the bytes of their
arguments are told by the stream alone. -/
theorem encode_of_decode (catalog : Catalog) (limits : Limits) (bytes : Bytes) (program : Program)
    (accepted : decode catalog limits bytes = .ok program) :
    ∃ s spellings, Decoder.instructions catalog (.initial limits bytes) = .ok () s ∧
      Reading bytes spellings s.cursor.rest ∧
      (∀ others rest, Reading bytes others rest → others = spellings ∧ rest = s.cursor.rest) ∧
      program.encode.length = s.cursor.offset ∧
      wordSize ∣ program.encode.length ∧
      program.encode.length ≤ bytes.length ∧
      (program.encode = bytes ↔ Canonical spellings s.cursor.rest) := by
  rcases reading_of_decode accepted with
    ⟨s, spellings, run, length, reading, legal, complete, built⟩
  refine ⟨s, spellings, run, reading, ?_, length, program.dvd_length_encode,
    length_encode_le accepted, encode_eq_iff_canonical reading legal complete built⟩
  intro others rest other
  rw [← List.append_nil bytes] at reading
  rw [← List.append_nil rest]
  exact other.unique reading

/-- The stream of the sample is canonical, the scrambled one is not. Both are read to the same
offset. -/
theorem encode_of_decode_samples :
    (decode sampleCatalog {} sampleProgram.encode = .ok sampleProgram ∧
      ∃ s spellings,
        Decoder.instructions sampleCatalog (.initial {} sampleProgram.encode) = .ok () s ∧
        Reading sampleProgram.encode spellings s.cursor.rest ∧
        s.cursor.offset = 176 ∧ Canonical spellings s.cursor.rest) ∧
    decode sampleCatalog {} scrambledStream = .ok sampleProgram ∧
      ∃ s spellings,
        Decoder.instructions sampleCatalog (.initial {} scrambledStream) = .ok () s ∧
        Reading scrambledStream spellings s.cursor.rest ∧
        s.cursor.offset = 176 ∧ ¬ Canonical spellings s.cursor.rest := by
  have size : sampleProgram.encode.length = 176 := by decide +kernel
  have plain : decode sampleCatalog {} sampleProgram.encode = .ok sampleProgram := by
    decide +kernel
  have scrambled : decode sampleCatalog {} scrambledStream = .ok sampleProgram := by
    decide +kernel
  constructor
  · rcases encode_of_decode sampleCatalog {} _ _ plain with
      ⟨s, spellings, run, reading, _, length, _, _, canonical⟩
    exact ⟨plain, s, spellings, run, reading, length.symm.trans size, canonical.mp rfl⟩
  · rcases encode_of_decode sampleCatalog {} _ _ scrambled with
      ⟨s, spellings, run, reading, _, length, _, _, canonical⟩
    refine ⟨scrambled, s, spellings, run, reading, length.symm.trans size, ?_⟩
    rw [← canonical]
    decide

end SyscallStream
