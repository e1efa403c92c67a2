import SyscallStream.Error

/-!
A cursor over a stream. A read either takes whole words and moves on, or fails and stays.
-/

namespace SyscallStream

structure Cursor where
  rest : Bytes
  offset : Nat
  remaining : Nat
  remaining_eq : remaining = rest.length

namespace Cursor

def ofBytes (bytes : Bytes) : Cursor := ⟨bytes, 0, bytes.length, rfl⟩

def advance (cursor : Cursor) (count : Nat) : Cursor where
  rest := cursor.rest.drop count
  offset := cursor.offset + count
  remaining := cursor.remaining - count
  remaining_eq := by simp [cursor.remaining_eq]

def overflow (cursor : Cursor) (needed : Nat) : DecodeError :=
  .overflow cursor.offset needed cursor.remaining

theorem ext {c d : Cursor} (rest : c.rest = d.rest) (offset : c.offset = d.offset) : c = d := by
  cases c; cases d
  simp_all

@[simp]
theorem offset_advance (cursor : Cursor) (count : Nat) :
    (cursor.advance count).offset = cursor.offset + count := rfl

@[simp]
theorem remaining_advance (cursor : Cursor) (count : Nat) :
    (cursor.advance count).remaining = cursor.remaining - count := rfl

@[simp]
theorem rest_advance (cursor : Cursor) (count : Nat) :
    (cursor.advance count).rest = cursor.rest.drop count := rfl

theorem length_take {cursor : Cursor} {count : Nat} (enough : count ≤ cursor.remaining) :
    (cursor.rest.take count).length = count := by
  rw [List.length_take, ← cursor.remaining_eq, Nat.min_eq_left enough]

end Cursor

/-- A computation on a cursor. The cursor survives a failure, so its offset can be reported. -/
abbrev Reader := EStateM DecodeError Cursor

def readWord : Reader UInt64 := fun cursor =>
  if wordSize ≤ cursor.remaining then
    .ok (Word.ofBytes (cursor.rest.take wordSize)) (cursor.advance wordSize)
  else .error (cursor.overflow wordSize) cursor

/-- Reads `size` bytes and skips what fills up their last word. -/
def readBlob (size : UInt64) : Reader Bytes := fun cursor =>
  match paddedSize? size with
  | none => .error (cursor.overflow (UInt64.size - 1)) cursor
  | some padded =>
    if padded.toNat ≤ cursor.remaining then
      .ok (cursor.rest.take size.toNat) (cursor.advance padded.toNat)
    else .error (cursor.overflow padded.toNat) cursor

theorem readWord_ok {c d : Cursor} {word : UInt64} (read : readWord c = .ok word d) :
    wordSize ≤ c.remaining ∧ word = Word.ofBytes (c.rest.take wordSize) ∧ d = c.advance wordSize := by
  unfold readWord at read
  split at read
  · cases read; exact ⟨by assumption, rfl, rfl⟩
  · cases read

theorem readWord_error {c d : Cursor} {error : DecodeError} (read : readWord c = .error error d) :
    c.remaining < wordSize ∧ error = c.overflow wordSize ∧ d = c := by
  unfold readWord at read
  split at read
  · cases read
  · cases read; exact ⟨by omega, rfl, rfl⟩

theorem readBlob_ok {c d : Cursor} {size : UInt64} {blob : Bytes}
    (read : readBlob size c = .ok blob d) :
    roundUp size.toNat ≤ c.remaining ∧ blob = c.rest.take size.toNat ∧
      d = c.advance (roundUp size.toNat) := by
  unfold readBlob at read
  split at read
  · cases read
  · rename_i padded rounded
    have value := (paddedSize?_eq_some.mp rounded).2
    split at read
    · cases read; simp_all
    · cases read

end SyscallStream
