import SyscallStream.Decode.Instruction
import SyscallStream.Progress

/-!
Every successful read shortens what is left of the stream, so decoding ends.
-/

namespace SyscallStream

theorem readWord_takes : Takes Cursor.remaining wordSize readWord := by
  intro c word d read
  obtain ⟨enough, _, rfl⟩ := readWord_ok read
  simp only [Cursor.remaining_advance]
  omega

theorem readBlob_takes (size : UInt64) :
    Takes Cursor.remaining (roundUp size.toNat) (readBlob size) := by
  intro c blob d read
  obtain ⟨enough, _, rfl⟩ := readBlob_ok read
  simp only [Cursor.remaining_advance]
  omega

theorem ConstArg.read_takes : Takes Cursor.remaining (2 * wordSize) ConstArg.read :=
  readWord_takes.bind fun _ => readWord_takes.bind fun _ => .pure _

theorem ResultArg.read_takes : Takes Cursor.remaining (5 * wordSize) ResultArg.read :=
  readWord_takes.bind fun _ => readWord_takes.bind fun _ => readWord_takes.bind fun _ =>
    readWord_takes.bind fun _ => readWord_takes.bind fun _ => .pure _

theorem DataArg.read_takes : Takes Cursor.remaining wordSize DataArg.read :=
  readWord_takes.bind fun _ => ((readBlob_takes _).bind fun _ => .pure _).weaken (Nat.zero_le _)

theorem Chunk.read_takes : Takes Cursor.remaining (3 * wordSize) Chunk.read :=
  readWord_takes.bind fun _ => readWord_takes.bind fun _ => readWord_takes.bind fun _ => .pure _

theorem Chunk.readMany_takes (count : Nat) (buffer : ChunkBuffer) :
    Takes Cursor.remaining (count * (3 * wordSize)) (Chunk.readMany count buffer) := by
  induction count generalizing buffer with
  | zero => exact (Takes.pure _).weaken (by omega)
  | succ count ih =>
    exact (Chunk.read_takes.bind fun _ => ih _).weaken (by rw [Nat.add_one_mul]; omega)

theorem Chunk.reserve_takes (count : UInt64) : Takes Cursor.remaining 0 (Chunk.reserve count) :=
  Takes.get.bind fun _ => .pure _

theorem ChecksumArg.read_takes : Takes Cursor.remaining (3 * wordSize) ChecksumArg.read := by
  refine readWord_takes.bind (n := 2 * wordSize) fun _ =>
    readWord_takes.bind (n := wordSize) fun word => ?_
  cases ChecksumKind.ofWord? word with
  | none => exact Takes.throw _
  | some kind =>
    exact readWord_takes.bind (n := 0) fun count =>
      (Chunk.reserve_takes count).bind (n := 0) fun _ =>
        ((Chunk.readMany_takes _ _).bind fun _ => .pure _).weaken (Nat.zero_le _)

/-- An argument is its tag and one more word at least. -/
theorem Arg.read_takes : Takes Cursor.remaining (2 * wordSize) Arg.read := by
  refine readWord_takes.bind (n := wordSize) fun word => ?_
  rcases ArgKind.ofWord? word with _ | kind
  · exact Takes.throw _
  · cases kind with
    | const => exact (ConstArg.read_takes.bind fun _ => .pure _).weaken (by decide)
    | result => exact (ResultArg.read_takes.bind fun _ => .pure _).weaken (by decide)
    | data => exact (DataArg.read_takes.bind fun _ => .pure _).weaken (by decide)
    | checksum => exact (ChecksumArg.read_takes.bind fun _ => .pure _).weaken (by decide)

def State.remaining (state : State) : Nat := state.cursor.remaining

namespace Decoder

theorem onCursor_takes {α : Type} {reader : Reader α} {n : Nat}
    (takes : Takes Cursor.remaining n reader) : Takes State.remaining n (onCursor reader) := by
  intro s a t run
  unfold onCursor at run
  split at run
  · rename_i value cursor read
    cases run
    exact takes _ _ _ read
  · cases run

theorem assign_takes (index value : UInt64) : Takes State.remaining 0 (assign index value) := by
  intro s a t run
  unfold assign at run
  split at run
  · cases run; exact Nat.le_refl _
  · cases run

theorem commit_takes : Takes State.remaining 0 commit := by
  intro s a t run
  unfold commit at run
  split at run
  · cases run; exact Nat.le_refl _
  · split at run
    · cases run
    · cases run; exact Nat.le_refl _

theorem modify_takes {change : State → State} (keeps : ∀ s, (change s).cursor = s.cursor) :
    Takes State.remaining 0 (modify change : Decoder Unit) := by
  intro s a t run
  cases run
  simp [State.remaining, keeps]

theorem start_takes (syscall : Syscall) (index : UInt64) :
    Takes State.remaining 0 (start syscall index) :=
  modify_takes fun _ => rfl

theorem pushArg_takes (arg : Arg) : Takes State.remaining 0 (pushArg arg) :=
  modify_takes fun _ => rfl

theorem pushCopyin_takes (copyin : Copyin) : Takes State.remaining 0 (pushCopyin copyin) :=
  modify_takes fun _ => rfl

theorem pushCopyout_takes (copyout : Copyout) : Takes State.remaining 0 (pushCopyout copyout) :=
  modify_takes fun _ => rfl

theorem operand_takes : Takes State.remaining (2 * wordSize) operand := by
  refine (onCursor_takes Arg.read_takes).bind (n := 0) fun arg => ?_
  cases arg with
  | result arg => exact (assign_takes _ _).bind fun _ => .pure _
  | _ => exact (Takes.pure _).bind fun _ => .pure _

theorem operands_takes (count position : Nat) :
    Takes State.remaining (count * (2 * wordSize)) (operands count position) := by
  induction count generalizing position with
  | zero => exact (Takes.pure _).weaken (by omega)
  | succ count ih =>
    refine (operand_takes.bind (n := count * (2 * wordSize)) fun arg => ?_).weaken
      (by rw [Nat.add_one_mul]; omega)
    split
    · exact ((pushArg_takes _).bind fun _ => ih _).weaken (by omega)
    · exact (Takes.get.bind fun _ => .throw (n := count * (2 * wordSize)) _).weaken (by omega)

theorem lookup_takes (catalog : Catalog) (word : UInt64) :
    Takes State.remaining 0 (lookup catalog word) := by
  unfold lookup
  split
  · exact .throw _
  · split
    · exact .pure _
    · exact .throw _

theorem call_takes (catalog : Catalog) (word : UInt64) :
    Takes State.remaining 0 (call catalog word) :=
  ((lookup_takes _ _).bind fun _ => (onCursor_takes readWord_takes).bind fun _ =>
    (start_takes _ _).bind fun _ => (onCursor_takes readWord_takes).bind fun count =>
      (operands_takes count.toNat 0).weaken (Nat.zero_le _)).weaken (Nat.zero_le _)

theorem instruction_takes (catalog : Catalog) :
    Takes State.remaining wordSize (instruction catalog) := by
  refine (onCursor_takes readWord_takes).bind (n := 0) fun word => ?_
  cases Opcode.ofWord word with
  | stop => exact commit_takes.bind fun _ => .pure _
  | copyin =>
    exact (commit_takes.bind fun _ => (onCursor_takes readWord_takes).bind fun _ =>
      operand_takes.bind fun _ => (pushCopyin_takes _).bind fun _ => .pure _).weaken (Nat.zero_le _)
  | copyout =>
    exact ((onCursor_takes readWord_takes).bind fun _ => (onCursor_takes readWord_takes).bind fun _ =>
      (onCursor_takes readWord_takes).bind fun _ => (pushCopyout_takes _).bind fun _ =>
        .pure _).weaken (Nat.zero_le _)
  | call word => exact commit_takes.bind fun _ => (call_takes _ _).bind fun _ => .pure _

end Decoder

end SyscallStream
