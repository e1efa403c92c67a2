import SyscallStream.Word

/-!
Codes of the stream: the leading word of an instruction, the tag of an argument, and the small
enumerations inside arguments.
-/

namespace SyscallStream

def stopWord : UInt64 := 0xffffffffffffffff

/-- Leading word of a write into the caller's memory before a call. -/
def copyinWord : UInt64 := 0xfffffffffffffffe

/-- Leading word of a read from the caller's memory after a call. -/
def copyoutWord : UInt64 := 0xfffffffffffffffd

/-- Result index of a call whose return value is not recorded. -/
def noResult : UInt64 := 0xffffffffffffffff

/-- Flag in the size word of a data argument; the other bits are the size. -/
def readableFlag : UInt64 := 0x8000000000000000

inductive Opcode where
  | stop
  | copyin
  | copyout
  | call (id : UInt64)
  deriving DecidableEq, Repr

def Opcode.ofWord (word : UInt64) : Opcode :=
  if word = stopWord then .stop
  else if word = copyinWord then .copyin
  else if word = copyoutWord then .copyout
  else .call word

def Opcode.word : Opcode → UInt64
  | .stop => stopWord
  | .copyin => copyinWord
  | .copyout => copyoutWord
  | .call id => id

def IsMarker (word : UInt64) : Prop :=
  word = stopWord ∨ word = copyinWord ∨ word = copyoutWord

instance (word : UInt64) : Decidable (IsMarker word) :=
  inferInstanceAs (Decidable (_ ∨ _ ∨ _))

@[simp]
theorem Opcode.word_ofWord (word : UInt64) : (Opcode.ofWord word).word = word := by
  unfold Opcode.ofWord
  split
  · simp_all [Opcode.word]
  · split
    · simp_all [Opcode.word]
    · split <;> simp_all [Opcode.word]

theorem Opcode.ofWord_eq_call {word id : UInt64} :
    Opcode.ofWord word = .call id ↔ word = id ∧ ¬ IsMarker word := by
  unfold Opcode.ofWord IsMarker
  split
  · simp_all
  · split
    · simp_all
    · split <;> simp_all

inductive ArgKind where
  | const
  | result
  | data
  | checksum
  deriving DecidableEq, Repr

def ArgKind.word : ArgKind → UInt64
  | .const => 0
  | .result => 1
  | .data => 2
  | .checksum => 3

def ArgKind.ofWord? (word : UInt64) : Option ArgKind :=
  if word = 0 then some .const
  else if word = 1 then some .result
  else if word = 2 then some .data
  else if word = 3 then some .checksum
  else none

def ArgKind.name : ArgKind → String
  | .const => "const"
  | .result => "result"
  | .data => "data"
  | .checksum => "csum"

@[simp]
theorem ArgKind.ofWord?_word (kind : ArgKind) : ArgKind.ofWord? kind.word = some kind := by
  cases kind <;> rfl

theorem ArgKind.ofWord?_eq_some {word : UInt64} {kind : ArgKind} :
    ArgKind.ofWord? word = some kind ↔ word = kind.word := by
  constructor
  · intro known
    unfold ArgKind.ofWord? at known
    split at known
    · cases known; assumption
    · split at known
      · cases known; assumption
      · split at known
        · cases known; assumption
        · split at known
          · cases known; assumption
          · cases known
  · rintro rfl
    exact ArgKind.ofWord?_word kind

/-- How a number is laid out in memory. Codes without a name are carried through. -/
structure NumberFormat where
  code : UInt8
  deriving BEq, ReflBEq, LawfulBEq, DecidableEq, Repr

def NumberFormat.name? (format : NumberFormat) : Option String :=
  match format.code.toNat with
  | 0 => some "native"
  | 1 => some "big_endian"
  | 2 => some "str_dec"
  | 3 => some "str_hex"
  | 4 => some "str_oct"
  | _ => none

inductive ChecksumKind where
  | inet
  deriving BEq, ReflBEq, LawfulBEq, DecidableEq, Repr

def ChecksumKind.word : ChecksumKind → UInt64
  | .inet => 0

def ChecksumKind.ofWord? (word : UInt64) : Option ChecksumKind :=
  if word = 0 then some .inet else none

/-- How a chunk contributes to a checksum. Codes without a name are carried through. -/
structure ChunkKind where
  code : UInt64
  deriving BEq, ReflBEq, LawfulBEq, DecidableEq, Repr

def ChunkKind.name? (kind : ChunkKind) : Option String :=
  match kind.code.toNat with
  | 0 => some "data"
  | 1 => some "const"
  | _ => none

@[simp]
theorem ChecksumKind.ofWord?_word (kind : ChecksumKind) :
    ChecksumKind.ofWord? kind.word = some kind := by
  cases kind; rfl

theorem ChecksumKind.ofWord?_eq_some {word : UInt64} {kind : ChecksumKind} :
    ChecksumKind.ofWord? word = some kind ↔ word = kind.word := by
  cases kind
  simp [ChecksumKind.ofWord?, ChecksumKind.word]

def paddedSize? (size : UInt64) : Option UInt64 :=
  if size.toNat + 7 < UInt64.size then some ((size + 7) / 8 * 8) else none

def roundUp (size : Nat) : Nat := (size + 7) / 8 * 8

theorem le_roundUp (size : Nat) : size ≤ roundUp size := by
  unfold roundUp; omega

theorem roundUp_mod (size : Nat) : roundUp size % 8 = 0 := by
  unfold roundUp; omega

theorem paddedSize?_eq_some {size padded : UInt64} :
    paddedSize? size = some padded ↔
      size.toNat + 7 < UInt64.size ∧ padded.toNat = roundUp size.toNat := by
  unfold paddedSize? roundUp
  split
  · rename_i fits
    simp only [Option.some.injEq, fits, true_and, ← UInt64.toNat_inj, UInt64.toNat_mul,
      UInt64.toNat_div, UInt64.toNat_add]
    have h8 : (8 : UInt64).toNat = 8 := rfl
    have h7 : (7 : UInt64).toNat = 7 := rfl
    rw [h7, h8]
    unfold UInt64.size at fits
    omega
  · rename_i overflows
    exact iff_of_false nofun fun rounded => overflows rounded.1

end SyscallStream
