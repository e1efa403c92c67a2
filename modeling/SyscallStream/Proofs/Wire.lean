import SyscallStream.Encode
import SyscallStream.Proofs.Instruction

/-! Wire forms: which byte strings stand for an argument, an instruction or a list of them.

The canonical form is one of them. The bytes that fill up data and the high bits of a result's
layout word are free. -/

namespace SyscallStream

inductive Arg.Wire : Arg → Bytes → Prop
  | const (arg : ConstArg) :
      Wire (.const arg) (encodeWords [ArgKind.const.word, arg.layout, arg.value])
  | result (arg : ResultArg) (layout : UInt64) (agrees : layout % 0x10000 = arg.layout) :
      Wire (.result arg) (encodeWords
        [ArgKind.result.word, layout, arg.index, arg.divOp, arg.addOp, arg.fallback])
  | data (arg : DataArg) (filler : Bytes) (short : arg.bytes.length < readableFlag.toNat)
      (fills : arg.bytes.length + filler.length = roundUp arg.bytes.length) :
      Wire (.data arg) (encodeWords [ArgKind.data.word, arg.sizeWord] ++ (arg.bytes ++ filler))
  | checksum (arg : ChecksumArg) (counted : arg.chunks.length < UInt64.size) :
      Wire (.checksum arg) (encodeWords
        [ArgKind.checksum.word, arg.size, arg.kind.word, UInt64.ofNat arg.chunks.length] ++
          arg.chunks.flatMap Chunk.encode)

inductive WireSeq {α : Type} (wire : α → Bytes → Prop) : List α → Bytes → Prop
  | nil : WireSeq wire [] []
  | cons {item : α} {items : List α} {front back : Bytes} (head : wire item front)
      (tail : WireSeq wire items back) : WireSeq wire (item :: items) (front ++ back)

inductive Instruction.Wire : Instruction → Bytes → Prop
  | copyin (input : Copyin) {bytes : Bytes} (arg : input.arg.Wire bytes) :
      Wire (.copyin input) (encodeWords [copyinWord, input.addr] ++ bytes)
  | copyout (output : Copyout) :
      Wire (.copyout output) (encodeWords [copyoutWord, output.index, output.addr, output.size])
  | call (word index : UInt64) {args : List Arg} {bytes : Bytes}
      (counted : args.length < UInt64.size) (operands : WireSeq Arg.Wire args bytes) :
      Wire (.call word index args)
        (encodeWords [word, index, UInt64.ofNat args.length] ++ bytes)

def Instruction.encode : Instruction → Bytes
  | .copyin input => input.encode
  | .copyout output => output.encode
  | .call word index args =>
    encodeWords [word, index, UInt64.ofNat args.length] ++ args.flatMap Arg.encode

theorem Call.encode_eq (call : Call) :
    call.encode = call.instructions.flatMap Instruction.encode := by
  simp only [Call.encode, Call.instructions, List.flatMap_append, List.flatMap_cons,
    List.flatMap_map, Instruction.encode, List.append_assoc]

theorem Program.encode_eq (program : Program) :
    program.encode =
      program.instructions.flatMap Instruction.encode ++ Word.toBytes stopWord := by
  have calls : program.calls.flatMap Call.encode =
      program.instructions.flatMap Instruction.encode := by
    rw [Program.instructions, List.flatMap_assoc]
    exact congrArg program.calls.flatMap (funext Call.encode_eq)
  rw [Program.encode, calls]
  simp [encodeWords]

theorem ResultArg.layout_mod (arg : ResultArg) : arg.layout % 0x10000 = arg.layout := by
  have hs := arg.size.toNat_lt
  have hf := arg.format.code.toNat_lt
  apply UInt64.toNat_inj.mp
  have width : (0x10000 : UInt64).toNat = 0x10000 := rfl
  rw [UInt64.toNat_mod, width, ResultArg.layout, UInt64.toNat_ofNat']
  omega

theorem length_le_flatMap {α : Type} {encode : α → Bytes}
    (some : ∀ item, 0 < (encode item).length) (items : List α) :
    items.length ≤ (items.flatMap encode).length := by
  induction items with
  | nil => exact Nat.zero_le _
  | cons item items ih =>
    have first := some item
    rw [List.flatMap_cons, List.length_append, List.length_cons]
    omega

theorem length_encode_le_flatMap {α : Type} (encode : α → Bytes) {items : List α} {item : α}
    (member : item ∈ items) : (encode item).length ≤ (items.flatMap encode).length := by
  induction items with
  | nil => cases member
  | cons first items ih =>
    rw [List.flatMap_cons, List.length_append]
    rcases List.mem_cons.mp member with rfl | later
    · omega
    · have inside := ih later
      omega

theorem Arg.length_encode_pos (arg : Arg) : 0 < arg.encode.length := by
  cases arg <;>
    simp only [Arg.encode, List.length_append, length_encodeWords, List.length_cons, wordSize] <;>
    omega

theorem Chunk.length_encode_pos (chunk : Chunk) : 0 < chunk.encode.length := by
  simp [Chunk.encode, wordSize]

def Arg.Sized : Arg → Prop
  | .data arg => arg.bytes.length < readableFlag.toNat
  | .checksum arg => arg.chunks.length < UInt64.size
  | _ => True

instance : (arg : Arg) → Decidable arg.Sized
  | .const _ => isTrue trivial
  | .result _ => isTrue trivial
  | .data arg => inferInstanceAs (Decidable (arg.bytes.length < readableFlag.toNat))
  | .checksum arg => inferInstanceAs (Decidable (arg.chunks.length < UInt64.size))

theorem Arg.Sized.wire {arg : Arg} (sized : arg.Sized) : arg.Wire arg.encode := by
  cases arg with
  | const arg => exact .const arg
  | result arg => exact .result arg arg.layout arg.layout_mod
  | data arg => exact .data arg (padding arg.bytes.length) sized (length_padding _)
  | checksum arg => exact .checksum arg sized

theorem Arg.Wire.sized {arg : Arg} {form : Bytes} (wire : arg.Wire form) : arg.Sized := by
  cases wire with
  | const arg => trivial
  | result arg layout agrees => trivial
  | data arg filler short fills => exact short
  | checksum arg counted => exact counted

/-- The canonical form of an argument is a wire form. Its length bounds the count of chunks. -/
theorem Arg.wire_encode (arg : Arg)
    (short : ∀ data, arg = .data data → data.bytes.length < readableFlag.toNat)
    (small : arg.encode.length < UInt64.size) : arg.Wire arg.encode := by
  apply Arg.Sized.wire
  cases arg with
  | const arg => trivial
  | result arg => trivial
  | data arg => exact short arg rfl
  | checksum arg =>
    have chunks := length_le_flatMap Chunk.length_encode_pos arg.chunks
    rw [Arg.encode, List.length_append] at small
    exact Nat.lt_of_le_of_lt chunks (by omega)

theorem Arg.Wire.length_eq {arg : Arg} {bytes : Bytes} (wire : arg.Wire bytes) :
    bytes.length = arg.encode.length := by
  cases wire with
  | const arg => rfl
  | result arg layout agrees => simp only [Arg.encode, length_encodeWords, List.length_cons]
  | data arg filler short fills =>
    have padded := length_padding arg.bytes.length
    simp only [Arg.encode, List.length_append]
    omega
  | checksum arg counted => rfl

namespace WireSeq

variable {α : Type} {wire : α → Bytes → Prop}

theorem of_encode {encode : α → Bytes} {items : List α}
    (wires : ∀ item ∈ items, wire item (encode item)) :
    WireSeq wire items (items.flatMap encode) := by
  induction items with
  | nil => exact .nil
  | cons item items ih =>
    rw [List.flatMap_cons]
    exact .cons (wires item List.mem_cons_self)
      (ih fun other member => wires other (List.mem_cons_of_mem item member))

theorem length_eq {items : List α} {bytes : Bytes} (seq : WireSeq wire items bytes)
    (encode : α → Bytes)
    (same : ∀ item bytes, wire item bytes → bytes.length = (encode item).length) :
    bytes.length = (items.flatMap encode).length := by
  induction seq with
  | nil => rfl
  | cons head tail ih =>
    rw [List.flatMap_cons, List.length_append, List.length_append, ih, same _ _ head]

end WireSeq

theorem Instruction.wire_encode (instruction : Instruction)
    (short : ∀ data, .data data ∈ instruction.arguments →
      data.bytes.length < readableFlag.toNat)
    (small : instruction.encode.length < UInt64.size) :
    instruction.Wire instruction.encode := by
  cases instruction with
  | copyin input =>
    rw [Instruction.encode, Copyin.encode, List.length_append] at small
    refine .copyin input (input.arg.wire_encode ?_ (by omega))
    intro data same
    exact short data (by rw [← same]; exact List.mem_singleton_self _)
  | copyout output => exact .copyout output
  | call word index args =>
    have count := length_le_flatMap Arg.length_encode_pos args
    rw [Instruction.encode, List.length_append] at small
    refine .call word index (by omega) (WireSeq.of_encode fun arg member => ?_)
    have inside := length_encode_le_flatMap Arg.encode member
    exact arg.wire_encode (fun data same => short data (same ▸ member)) (by omega)

theorem Instruction.Wire.length_eq {instruction : Instruction} {bytes : Bytes}
    (wire : instruction.Wire bytes) : bytes.length = instruction.encode.length := by
  cases wire with
  | copyin input arg =>
    simp only [Instruction.encode, Copyin.encode, List.length_append, arg.length_eq]
  | copyout output => rfl
  | call word index counted operands =>
    have tail := operands.length_eq Arg.encode fun _ _ wire => wire.length_eq
    simp only [Instruction.encode, List.length_append, tail]

theorem Arg.Wire.short {arg : Arg} {bytes : Bytes} (wire : arg.Wire bytes) {data : DataArg}
    (same : arg = .data data) : data.bytes.length < readableFlag.toNat := by
  have sized := wire.sized
  rw [same] at sized
  exact sized

theorem WireSeq.exists_wire {α : Type} {wire : α → Bytes → Prop} {items : List α}
    {bytes : Bytes} (seq : WireSeq wire items bytes) {item : α} (member : item ∈ items) :
    ∃ own, wire item own := by
  induction seq with
  | nil => cases member
  | cons head tail ih =>
    rcases List.mem_cons.mp member with rfl | later
    · exact ⟨_, head⟩
    · exact ih later

theorem Instruction.Wire.short {instruction : Instruction} {bytes : Bytes}
    (wire : instruction.Wire bytes) {data : DataArg}
    (member : .data data ∈ instruction.arguments) :
    data.bytes.length < readableFlag.toNat := by
  cases wire with
  | copyin input arg => exact arg.short (List.mem_singleton.mp member).symm
  | copyout output => cases member
  | call word index counted operands =>
    rcases operands.exists_wire member with ⟨own, arg⟩
    exact arg.short rfl

end SyscallStream
