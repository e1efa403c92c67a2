import Mathlib.Data.List.Forall2
import SyscallStream.Proofs.Reading

/-! How a stream spells its instructions: the words that an instruction starts with, and the bytes
of each of its arguments. Up to its stop word a stream is spelled in one way only. -/

namespace SyscallStream

theorem Word.toBytes_append_inj {word other : UInt64} {rest tail : Bytes}
    (same : Word.toBytes word ++ rest = Word.toBytes other ++ tail) :
    word = other ∧ rest = tail := by
  have sizes : (Word.toBytes word).length = (Word.toBytes other).length := by
    rw [Word.length_toBytes, Word.length_toBytes]
  rcases List.append_inj same sizes with ⟨bytes, rest⟩
  refine ⟨?_, rest⟩
  calc
    word = Word.ofBytes (Word.toBytes word) := (Word.ofBytes_toBytes word).symm
    _ = Word.ofBytes (Word.toBytes other) := by rw [bytes]
    _ = other := Word.ofBytes_toBytes other

theorem encodeWords_cons_append (word : UInt64) (words : List UInt64) (rest : Bytes) :
    encodeWords (word :: words) ++ rest = Word.toBytes word ++ (encodeWords words ++ rest) := by
  rw [encodeWords, List.flatMap_cons, List.append_assoc]
  rfl

theorem encodeWords_append_inj {words others : List UInt64} {rest tail : Bytes}
    (count : words.length = others.length)
    (same : encodeWords words ++ rest = encodeWords others ++ tail) :
    words = others ∧ rest = tail := by
  induction words generalizing others with
  | nil =>
    obtain rfl := List.length_eq_zero_iff.mp count.symm
    exact ⟨rfl, same⟩
  | cons word words ih =>
    cases others with
    | nil => cases count
    | cons other others =>
      rw [encodeWords_cons_append, encodeWords_cons_append] at same
      rcases Word.toBytes_append_inj same with ⟨rfl, later⟩
      rcases ih (Nat.succ.inj count) later with ⟨rfl, behind⟩
      exact ⟨rfl, behind⟩

/-- Two arguments in front of the same bytes are one. Reading is a function, so this needs no look
at the forms. -/
theorem Arg.Wire.unique {arg other : Arg} {form shape rest tail : Bytes} (first : arg.Wire form)
    (second : other.Wire shape) (same : form ++ rest = shape ++ tail) :
    arg = other ∧ form = shape ∧ rest = tail := by
  have reads {item : Arg} {front back : Bytes} (wire : item.Wire front)
      (split : form ++ rest = front ++ back) :
      Arg.read (.ofBytes (form ++ rest)) =
        .ok item ((Cursor.ofBytes (form ++ rest)).advance front.length) := by
    apply Arg.read_eq_ok.mpr
    refine ⟨front, wire, ?_, ?_⟩
    · rw [Cursor.rest_advance]
      change form ++ rest = front ++ (form ++ rest).drop front.length
      rw [split, List.drop_left]
    · rw [Cursor.offset_advance]
  have both := (reads first rfl).symm.trans (reads second same)
  rw [EStateM.Result.ok.injEq] at both
  have offsets := congrArg Cursor.offset both.2
  rw [Cursor.offset_advance, Cursor.offset_advance] at offsets
  exact ⟨both.1, List.append_inj same (Nat.add_left_cancel offsets)⟩

namespace Instruction

def opcode : Instruction → Opcode
  | .copyin _ => .copyin
  | .copyout _ => .copyout
  | .call word _ _ => .call word

def fields : Instruction → List UInt64
  | .copyin input => [input.addr]
  | .copyout output => [output.index, output.addr, output.size]
  | .call _ index args => [index, UInt64.ofNat args.length]

/-- The leading word announces the instruction: no marker stands for a call. -/
def Plain (instruction : Instruction) : Prop :=
  Opcode.ofWord instruction.opcode.word = instruction.opcode

theorem plain_iff {instruction : Instruction} : instruction.Plain ↔
    ∀ word index args, instruction = .call word index args → ¬ IsMarker word := by
  cases instruction with
  | copyin input => exact iff_of_true rfl nofun
  | copyout output => exact iff_of_true rfl nofun
  | call word index args =>
    change Opcode.ofWord word = .call word ↔ _
    rw [Opcode.ofWord_eq_call]
    constructor
    · intro own _ _ _ equal
      cases equal
      exact own.2
    · intro plain
      exact ⟨rfl, plain word index args rfl⟩

variable {instruction other : Instruction}

theorem Plain.opcode_eq (plain : instruction.Plain) (also : other.Plain)
    (word : instruction.opcode.word = other.opcode.word) : instruction.opcode = other.opcode := by
  rw [← plain, word, also]

theorem Plain.word_ne_stop (plain : instruction.Plain) : instruction.opcode.word ≠ stopWord := by
  intro stop
  have announced : instruction.opcode = .stop := by
    rw [← plain, stop]
    rfl
  cases instruction <;> cases announced

theorem length_fields (opcode : instruction.opcode = other.opcode) :
    instruction.fields.length = other.fields.length := by
  cases instruction <;> cases other <;> cases opcode <;> rfl

theorem length_arguments (opcode : instruction.opcode = other.opcode)
    (fields : instruction.fields = other.fields)
    (counted : instruction.arguments.length < UInt64.size)
    (limited : other.arguments.length < UInt64.size) :
    instruction.arguments.length = other.arguments.length := by
  cases instruction with
  | copyin input =>
    cases other with
    | copyin input' => rfl
    | _ => cases opcode
  | copyout output =>
    cases other with
    | copyout output' => rfl
    | _ => cases opcode
  | call word index args =>
    cases other with
    | call word' index' args' =>
      have count : UInt64.ofNat args.length = UInt64.ofNat args'.length := by
        simpa [Instruction.fields] using (List.cons.inj fields).2
      calc
        args.length = (UInt64.ofNat args.length).toNat :=
          (UInt64.toNat_ofNat_of_lt' counted).symm
        _ = (UInt64.ofNat args'.length).toNat := by rw [count]
        _ = args'.length := UInt64.toNat_ofNat_of_lt' limited
    | _ => cases opcode

theorem counted_iff : instruction.arguments.length < UInt64.size ↔
    ∀ word index args, instruction = .call word index args → args.length < UInt64.size := by
  cases instruction with
  | copyin input =>
    have one : [input.arg].length < UInt64.size := by
      change 1 < UInt64.size
      decide
    exact iff_of_true one nofun
  | copyout output =>
    have none : ([] : List Arg).length < UInt64.size := by decide
    exact iff_of_true none nofun
  | call word index args =>
    constructor
    · intro counted _ _ _ equal
      cases equal
      exact counted
    · intro counted
      exact counted word index args rfl

theorem eq_of_parts (opcode : instruction.opcode = other.opcode)
    (fields : instruction.fields = other.fields)
    (arguments : instruction.arguments = other.arguments) : instruction = other := by
  cases instruction with
  | copyin input =>
    cases other with
    | copyin input' =>
      obtain ⟨addr, arg⟩ := input
      cases fields
      cases arguments
      rfl
    | _ => cases opcode
  | copyout output =>
    cases other with
    | copyout output' =>
      obtain ⟨index, addr, size⟩ := output
      cases fields
      rfl
    | _ => cases opcode
  | call word index args =>
    cases other with
    | call word' index' args' =>
      cases opcode
      obtain rfl : args = args' := arguments
      rw [(List.cons.inj fields).1]
    | _ => cases opcode

end Instruction

structure Spelling where
  instruction : Instruction
  forms : List Bytes

namespace Spelling

def bytes (spelling : Spelling) : Bytes :=
  encodeWords (spelling.instruction.opcode.word :: spelling.instruction.fields) ++
    spelling.forms.flatten

def arguments (spelling : Spelling) : List (Arg × Bytes) :=
  spelling.instruction.arguments.zip spelling.forms

structure Valid (spelling : Spelling) : Prop where
  plain : spelling.instruction.Plain
  counted : spelling.instruction.arguments.length < UInt64.size
  forms : List.Forall₂ Arg.Wire spelling.instruction.arguments spelling.forms

theorem forms_unique {args others : List Arg} {forms shapes : List Bytes} {rest tail : Bytes}
    (first : List.Forall₂ Arg.Wire args forms) (second : List.Forall₂ Arg.Wire others shapes)
    (count : args.length = others.length)
    (same : forms.flatten ++ rest = shapes.flatten ++ tail) :
    args = others ∧ forms = shapes ∧ rest = tail := by
  induction first generalizing others shapes with
  | nil =>
    obtain rfl := List.length_eq_zero_iff.mp count.symm
    cases second
    exact ⟨rfl, rfl, same⟩
  | cons wire _ ih =>
    cases second with
    | nil => cases count
    | cons wire' wires' =>
      rw [List.flatten_cons, List.flatten_cons, List.append_assoc, List.append_assoc] at same
      rcases wire.unique wire' same with ⟨rfl, rfl, later⟩
      rcases ih wires' (Nat.succ.inj count) later with ⟨rfl, rfl, behind⟩
      exact ⟨rfl, rfl, behind⟩

variable {spelling other : Spelling} {rest tail : Bytes}

theorem bytes_append (spelling : Spelling) (rest : Bytes) : spelling.bytes ++ rest =
    Word.toBytes spelling.instruction.opcode.word ++
      (encodeWords spelling.instruction.fields ++ (spelling.forms.flatten ++ rest)) := by
  rw [bytes, List.append_assoc, encodeWords_cons_append]

/-- Two instructions in front of the same bytes are one, spelled in one way. -/
theorem Valid.unique (first : spelling.Valid) (second : other.Valid)
    (same : spelling.bytes ++ rest = other.bytes ++ tail) : spelling = other ∧ rest = tail := by
  rw [bytes_append, bytes_append] at same
  rcases Word.toBytes_append_inj same with ⟨word, same⟩
  have opcode := first.plain.opcode_eq second.plain word
  rcases encodeWords_append_inj (Instruction.length_fields opcode) same with ⟨fields, same⟩
  have count := Instruction.length_arguments opcode fields first.counted second.counted
  rcases forms_unique first.forms second.forms count same with ⟨arguments, forms, behind⟩
  have instruction := Instruction.eq_of_parts opcode fields arguments
  refine ⟨?_, behind⟩
  calc
    spelling = ⟨spelling.instruction, spelling.forms⟩ := rfl
    _ = other := by rw [instruction, forms]

/-- No instruction is taken for the end. -/
theorem Valid.bytes_ne_stop (valid : spelling.Valid) :
    spelling.bytes ++ rest ≠ Word.toBytes stopWord ++ tail := by
  intro same
  rw [bytes_append] at same
  exact valid.plain.word_ne_stop (Word.toBytes_append_inj same).1

end Spelling

structure Reading (bytes : Bytes) (spellings : List Spelling) (rest : Bytes) : Prop where
  split : bytes = spellings.flatMap Spelling.bytes ++ (Word.toBytes stopWord ++ rest)
  valid : ∀ spelling ∈ spellings, spelling.Valid

/-- A stream is read in one way, and so is a stream that continues it. -/
theorem Reading.unique {bytes more rest tail : Bytes} {spellings others : List Spelling}
    (first : Reading bytes spellings rest) (second : Reading (bytes ++ more) others tail) :
    spellings = others ∧ rest ++ more = tail := by
  have same := second.split
  rw [first.split, List.append_assoc, List.append_assoc] at same
  have valid := first.valid
  have valid' := second.valid
  clear first second
  induction spellings generalizing others with
  | nil =>
    cases others with
    | nil => exact ⟨rfl, List.append_cancel_left same⟩
    | cons other others =>
      rw [List.flatMap_cons, List.append_assoc] at same
      exact absurd same.symm (valid' other List.mem_cons_self).bytes_ne_stop
  | cons spelling spellings ih =>
    rw [List.forall_mem_cons] at valid
    cases others with
    | nil =>
      rw [List.flatMap_cons, List.append_assoc] at same
      exact absurd same valid.1.bytes_ne_stop
    | cons other others =>
      rw [List.forall_mem_cons] at valid'
      rw [List.flatMap_cons, List.flatMap_cons, List.append_assoc, List.append_assoc] at same
      rcases valid.1.unique valid'.1 same with ⟨rfl, later⟩
      rcases ih later valid.2 valid'.2 with ⟨rfl, behind⟩
      exact ⟨rfl, behind⟩

def Instruction.spelled (instruction : Instruction) : Spelling :=
  ⟨instruction, instruction.arguments.map Arg.encode⟩

theorem Instruction.bytes_spelled (instruction : Instruction) :
    instruction.spelled.bytes = instruction.encode := by
  cases instruction with
  | copyin input =>
    change encodeWords [copyinWord, input.addr] ++ [input.arg.encode].flatten = _
    rw [List.flatten_singleton]
    rfl
  | copyout output => exact List.append_nil _
  | call word index args =>
    change _ ++ (args.map Arg.encode).flatten = _ ++ args.flatMap Arg.encode
    rw [List.flatMap_def]
    rfl

theorem Instruction.valid_spelled {instruction : Instruction} (plain : instruction.Plain)
    (counted : instruction.arguments.length < UInt64.size)
    (sized : ∀ arg ∈ instruction.arguments, arg.Sized) : instruction.spelled.Valid := by
  refine ⟨plain, counted, ?_⟩
  change List.Forall₂ Arg.Wire instruction.arguments (instruction.arguments.map Arg.encode)
  rw [List.forall₂_map_right_iff, List.forall₂_same]
  intro arg member
  exact (sized arg member).wire

theorem Spelling.Valid.canonical {spelling : Spelling} (valid : spelling.Valid) :
    spelling.instruction.spelled.Valid := by
  apply Instruction.valid_spelled valid.plain valid.counted
  intro arg member
  have wires := valid.forms
  generalize spelling.instruction.arguments = args at member wires
  generalize spelling.forms = forms at wires
  induction wires with
  | nil => cases member
  | cons wire _ ih =>
    rcases List.mem_cons.mp member with rfl | later
    · exact wire.sized
    · exact ih later

theorem Program.reading_encode {program : Program}
    (valid : ∀ instruction ∈ program.instructions, instruction.spelled.Valid) :
    Reading program.encode (program.instructions.map Instruction.spelled) [] := by
  constructor
  · have bytes : (program.instructions.map Instruction.spelled).flatMap Spelling.bytes =
        program.instructions.flatMap Instruction.encode := by
      rw [List.flatMap_map]
      exact congrArg program.instructions.flatMap (funext Instruction.bytes_spelled)
    rw [bytes, List.append_nil]
    exact program.encode_eq
  · intro spelling member
    rcases List.mem_map.mp member with ⟨instruction, own, rfl⟩
    exact valid instruction own

theorem WireSeq.exists_forms {args : List Arg} {bytes : Bytes}
    (seq : WireSeq Arg.Wire args bytes) :
    ∃ forms, List.Forall₂ Arg.Wire args forms ∧ forms.flatten = bytes := by
  induction seq with
  | nil => exact ⟨[], .nil, rfl⟩
  | cons wire _ ih =>
    rcases ih with ⟨forms, wires, rfl⟩
    exact ⟨_ :: forms, .cons wire wires, rfl⟩

theorem Instruction.Wire.exists_spelling {instruction : Instruction} {bytes : Bytes}
    (wire : instruction.Wire bytes) (plain : instruction.Plain) :
    ∃ spelling : Spelling, spelling.instruction = instruction ∧ spelling.Valid ∧
      spelling.bytes = bytes := by
  cases wire with
  | @copyin input form arg =>
    refine ⟨⟨.copyin input, [form]⟩, rfl, ⟨plain, counted_iff.mpr nofun, .cons arg .nil⟩, ?_⟩
    rw [Spelling.bytes, List.flatten_singleton]
    rfl
  | copyout output =>
    exact ⟨⟨.copyout output, []⟩, rfl, ⟨plain, counted_iff.mpr nofun, .nil⟩, List.append_nil _⟩
  | call word index counted operands =>
    rcases operands.exists_forms with ⟨forms, wires, rfl⟩
    exact ⟨⟨.call word index _, forms⟩, rfl, ⟨plain, counted, wires⟩, rfl⟩

theorem exists_spellings {instructions : List Instruction} {bytes : Bytes}
    (seq : WireSeq Instruction.Wire instructions bytes)
    (plain : ∀ instruction ∈ instructions, instruction.Plain) :
    ∃ spellings : List Spelling, spellings.map Spelling.instruction = instructions ∧
      (∀ spelling ∈ spellings, spelling.Valid) ∧
      spellings.flatMap Spelling.bytes = bytes := by
  induction seq with
  | nil => exact ⟨[], rfl, List.forall_mem_nil _, rfl⟩
  | cons wire _ ih =>
    rw [List.forall_mem_cons] at plain
    rcases wire.exists_spelling plain.1 with ⟨spelling, rfl, valid, rfl⟩
    rcases ih plain.2 with ⟨spellings, rfl, valids, rfl⟩
    exact ⟨spelling :: spellings, rfl, List.forall_mem_cons.mpr ⟨valid, valids⟩, rfl⟩

end SyscallStream
