import Mathlib.Algebra.GroupWithZero.Nat
import SyscallStream.Proofs.Reservations
import SyscallStream.Proofs.RoundTrip

/-! How much work a stream can cause. A round of a loop takes bytes from the stream or is the last
one, so it does not matter how many rounds the stream announces: the bytes that are left bound the
rounds, the room that is made for chunks, and the size of the program. -/

namespace SyscallStream

section Rounds

end Rounds

def Chunk.round (c : Cursor) : Option Cursor :=
  match Chunk.read c with
  | .ok _ d => some d
  | .error .. => none

def Cursor.Moves (c : Cursor) (count : Nat) (d : Cursor) : Prop :=
  count ≤ c.remaining ∧ d = c.advance count

section Moves

theorem Cursor.Passes.moves {c d : Cursor} {bytes : Bytes} (passes : c.Passes bytes d) :
    c.Moves bytes.length d :=
  ⟨passes.length_le, passes.eq_advance⟩

theorem Cursor.Moves.le {c d : Cursor} {count size : Nat} (moves : c.Moves count d)
    (takes : d.remaining + size ≤ c.remaining) : size ≤ count := by
  rcases moves with ⟨inside, rfl⟩
  rw [Cursor.remaining_advance] at takes
  omega

namespace Decoder

variable {catalog : Catalog} {s t : State}

end Decoder

end Moves

section Loops

variable {catalog : Catalog}

namespace Decoder

end Decoder

end Loops

section Sizes

def Arg.footprint : Arg → Nat
  | .const _ => 24
  | .result _ => 48
  | .data arg => 16 + roundUp arg.bytes.length
  | .checksum arg => 32 + 24 * arg.chunks.length

def Call.footprint (call : Call) : Nat :=
  24 + 32 * call.copyout.length + (call.copyin.map fun copyin => 16 + copyin.arg.footprint).sum +
    (call.args.map fun arg => arg.footprint).sum

def Program.footprint (program : Program) : Nat :=
  8 + (program.calls.map fun call => call.footprint).sum

theorem Arg.length_encode (arg : Arg) : arg.encode.length = arg.footprint := by
  cases arg with
  | const arg => rw [Arg.encode, length_encodeWords]; rfl
  | result arg => rw [Arg.encode, length_encodeWords]; rfl
  | data arg =>
    rw [Arg.encode, List.length_append, length_encodeWords, List.length_append, length_padding]
    rfl
  | checksum arg =>
    simp only [Arg.encode, List.length_append, length_encodeWords, List.length_flatMap,
      Chunk.length_encode, List.map_const', List.sum_replicate_nat, Arg.footprint]
    rw [Nat.mul_comm 24]
    rfl

theorem Copyin.length_encode (copyin : Copyin) :
    copyin.encode.length = 16 + copyin.arg.footprint := by
  rw [Copyin.encode, List.length_append, length_encodeWords, Arg.length_encode]
  rfl

theorem Copyout.length_encode (copyout : Copyout) : copyout.encode.length = 32 := by
  rw [Copyout.encode, length_encodeWords]
  rfl

theorem Call.length_encode (call : Call) : call.encode.length = call.footprint := by
  simp only [Call.encode, List.length_append, length_encodeWords, List.length_flatMap,
    Copyin.length_encode, Copyout.length_encode, Arg.length_encode, List.map_const',
    List.sum_replicate_nat, Call.footprint, List.length_cons, List.length_nil, wordSize]
  omega

theorem Program.length_encode (program : Program) :
    program.encode.length = program.footprint := by
  simp only [Program.encode, List.length_append, length_encodeWords, List.length_flatMap,
    Call.length_encode, Program.footprint, List.length_cons, List.length_nil, wordSize]
  omega

end Sizes

def checksumProgram : Program where
  calls := [{
    syscall := ⟨0, 257, "openat", "openat"⟩
    index := noResult
    args := []
    copyin := [⟨16, .checksum ⟨2, .inet, [⟨⟨0⟩, 32, 8⟩, ⟨⟨1⟩, 6, 2⟩]⟩⟩]
    copyout := [] }]
  vars := []

end SyscallStream
