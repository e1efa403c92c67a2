import SyscallStream.Encode.Buffer
import SyscallStream.Proofs.Assembly
import SyscallStream.Proofs.Spelling

/-! The canonical stream is a prefix code: it tells the calls of a program, also of a program that
decoding would refuse, and it does not depend on what stands in front of it. -/

namespace SyscallStream

def Call.bare (call : Call) : Call :=
  { call with syscall := ⟨call.syscall.id, 0, "", ""⟩ }

/-- Ids that are no markers, and lengths and counts that fit into their words. -/
structure Program.Spellable (program : Program) : Prop where
  ids : ∀ call ∈ program.calls, ¬ IsMarker call.syscall.id
  counts : ∀ call ∈ program.calls, call.args.length < UInt64.size
  sizes : ∀ arg ∈ program.arguments, arg.Sized

instance (program : Program) : Decidable program.Spellable :=
  decidable_of_iff
    ((∀ call ∈ program.calls, ¬ IsMarker call.syscall.id) ∧
      (∀ call ∈ program.calls, call.args.length < UInt64.size) ∧
      ∀ arg ∈ program.arguments, arg.Sized)
    ⟨fun ⟨ids, counts, sizes⟩ => ⟨ids, counts, sizes⟩,
    fun ⟨ids, counts, sizes⟩ => ⟨ids, counts, sizes⟩⟩

def bareCatalog : Catalog where
  size := 0
  entry? word := some ⟨word, 0, "", ""⟩

namespace Program

variable {program : Program}

theorem map_bare_eq (program : Program) :
    program.calls.map Call.bare = (assemble bareCatalog program.instructions).calls := by
  have found : ∀ call ∈ program.calls.map Call.bare,
      bareCatalog.entry? call.syscall.id = some call.syscall := by
    intro call member
    rcases List.mem_map.mp member with ⟨origin, _, rfl⟩
    rfl
  have same : (Program.mk (program.calls.map Call.bare) []).instructions =
      program.instructions := by
    rw [instructions, List.flatMap_map]
    rfl
  rw [← same]
  exact (@assemble_instructions bareCatalog ⟨program.calls.map Call.bare, []⟩ found).2

theorem call_of_mem_instructions {word index : UInt64} {args : List Arg}
    (member : .call word index args ∈ program.instructions) :
    ∃ call ∈ program.calls, word = call.syscall.id ∧ args = call.args := by
  rcases mem_instructions.mp member with ⟨call, inside, own⟩
  have parts : word = call.syscall.id ∧ index = call.index ∧ args = call.args := by
    simpa [Call.instructions] using own
  exact ⟨call, inside, parts.1, parts.2.2⟩

theorem Spellable.valid (spellable : program.Spellable) {instruction : Instruction}
    (member : instruction ∈ program.instructions) : instruction.spelled.Valid := by
  apply Instruction.valid_spelled
  · apply Instruction.plain_iff.mpr
    intro word index args equal
    rw [equal] at member
    rcases call_of_mem_instructions member with ⟨call, inside, rfl, _⟩
    exact spellable.ids call inside
  · apply Instruction.counted_iff.mpr
    intro word index args equal
    rw [equal] at member
    rcases call_of_mem_instructions member with ⟨call, inside, _, rfl⟩
    exact spellable.counts call inside
  · intro arg argument
    apply spellable.sizes
    rw [← arguments_instructions]
    exact List.mem_flatMap.mpr ⟨instruction, member, argument⟩

/-- A stream that starts with the stream of a program holds its instructions and nothing else. -/
theorem instructions_of_prefix {first second : Program} (spellable : first.Spellable)
    (spellable' : second.Spellable) {more : Bytes}
    (continued : first.encode ++ more = second.encode) :
    first.instructions = second.instructions ∧ more = [] := by
  have reading := reading_encode fun _ => spellable.valid
  have reading' := reading_encode fun _ => spellable'.valid
  rw [← continued] at reading'
  rcases reading.unique reading' with ⟨spelled, behind⟩
  refine ⟨?_, behind⟩
  have instructions := congrArg (List.map Spelling.instruction) spelled
  rw [List.map_map, List.map_map] at instructions
  simpa [Function.comp_def, Instruction.spelled] using instructions

end Program

/-- No stream of a program goes on as that of a program with other calls. No argument goes on as
another argument. A buffer gets the same bytes, whatever it holds. -/
theorem encode_unambiguous :
    (∀ first second : Program, first.Spellable → second.Spellable →
      first.encode <+: second.encode →
        first.calls.map Call.bare = second.calls.map Call.bare ∧
          first.encode = second.encode) ∧
    (∀ arg other : Arg, arg.Sized → other.Sized → ∀ rest tail : Bytes,
      arg.encode ++ rest = other.encode ++ tail → arg = other ∧ rest = tail) ∧
    (∀ (out : Buffer) (program : Program),
      (program.encodeInto out).toList = out.toList ++ program.encode) ∧
    ∀ (out : Buffer) (arg : Arg), (arg.encodeInto out).toList = out.toList ++ arg.encode := by
  refine ⟨?_, ?_, Program.toList_encodeInto, Arg.toList_encodeInto⟩
  · intro first second spellable spellable' continued
    rcases continued with ⟨more, continued⟩
    rcases Program.instructions_of_prefix spellable spellable' continued with
      ⟨instructions, rfl⟩
    rw [List.append_nil] at continued
    refine ⟨?_, continued⟩
    rw [Program.map_bare_eq, Program.map_bare_eq, instructions]
  · intro arg other sized sized' rest tail same
    rcases sized.wire.unique sized'.wire same with ⟨equal, _, behind⟩
    exact ⟨equal, behind⟩

/-- A call that decoding refuses: its arguments are no scalars, and nothing gives its variables a
value. -/
def refusedCall (name : String) : Call where
  syscall := ⟨3, 16, name, "ioctl"⟩
  index := 70000
  args := [.data ⟨[1, 2, 3], true⟩, .checksum ⟨2, .inet, [⟨⟨5⟩, 1, 8⟩]⟩]
  copyin := [⟨8, .result ⟨8, ⟨0⟩, 2, 0, 0, 7⟩⟩]
  copyout := [⟨9, 16, 4⟩]

theorem encode_unambiguous_refusedCall :
    (Program.mk [refusedCall "ioctl$A"] []).Spellable ∧
      (Program.mk [refusedCall "ioctl$B"] [5]).Spellable ∧
      (Program.mk [refusedCall "ioctl$A"] []).encode <+:
        (Program.mk [refusedCall "ioctl$B"] [5]).encode ∧
      [refusedCall "ioctl$A"].map Call.bare = [refusedCall "ioctl$B"].map Call.bare := by
  have spellable : (Program.mk [refusedCall "ioctl$A"] []).Spellable := by decide +kernel
  have spellable' : (Program.mk [refusedCall "ioctl$B"] [5]).Spellable := by decide +kernel
  have continued : (Program.mk [refusedCall "ioctl$A"] []).encode <+:
      (Program.mk [refusedCall "ioctl$B"] [5]).encode := List.prefix_rfl
  exact ⟨spellable, spellable', continued,
    (encode_unambiguous.1 _ _ spellable spellable' continued).1⟩

end SyscallStream
