/-!
Words of the stream: 64-bit values, written as eight bytes, least significant first.
-/

namespace SyscallStream

abbrev Bytes := List UInt8

def wordSize : Nat := 8

def littleEndian : Bytes → Nat
  | [] => 0
  | b :: rest => b.toNat + 256 * littleEndian rest

def littleEndianBytes : (width value : Nat) → Bytes
  | 0, _ => []
  | width + 1, value => UInt8.ofNat value :: littleEndianBytes width (value / 256)

def Word.ofBytes (bytes : Bytes) : UInt64 := UInt64.ofNat (littleEndian bytes)

def Word.toBytes (word : UInt64) : Bytes := littleEndianBytes wordSize word.toNat

@[simp]
theorem length_littleEndianBytes (width value : Nat) :
    (littleEndianBytes width value).length = width := by
  induction width generalizing value with
  | zero => rfl
  | succ width ih => simp [littleEndianBytes, ih]

theorem littleEndianBytes_littleEndian (bytes : Bytes) :
    littleEndianBytes bytes.length (littleEndian bytes) = bytes := by
  induction bytes with
  | nil => rfl
  | cons b rest ih =>
    have hb := b.toNat_lt
    have hquot : (b.toNat + 256 * littleEndian rest) / 256 = littleEndian rest := by omega
    have hbyte : UInt8.ofNat (b.toNat + 256 * littleEndian rest) = b := by
      apply UInt8.toNat_inj.mp
      simp
    simp only [littleEndian, List.length_cons, littleEndianBytes, hquot, hbyte, ih]

@[simp]
theorem Word.length_toBytes (word : UInt64) : (Word.toBytes word).length = wordSize :=
  length_littleEndianBytes _ _

theorem Word.toNat_ofBytes {bytes : Bytes} (eight : bytes.length = wordSize) :
    (Word.ofBytes bytes).toNat = littleEndian bytes := by
  match bytes, eight with
  | [a, b, c, d, e, f, g, h], _ =>
    have := a.toNat_lt; have := b.toNat_lt; have := c.toNat_lt; have := d.toNat_lt
    have := e.toNat_lt; have := f.toNat_lt; have := g.toNat_lt; have := h.toNat_lt
    simp only [Word.ofBytes, littleEndian, UInt64.toNat_ofNat']
    omega

theorem Word.toBytes_ofBytes {bytes : Bytes} (eight : bytes.length = wordSize) :
    Word.toBytes (Word.ofBytes bytes) = bytes := by
  rw [Word.toBytes, Word.toNat_ofBytes eight, ← eight, littleEndianBytes_littleEndian]

@[simp]
theorem Word.ofBytes_toBytes (word : UInt64) : Word.ofBytes (Word.toBytes word) = word := by
  have bound := word.toNat_lt
  apply UInt64.toNat_inj.mp
  rw [Word.toNat_ofBytes (Word.length_toBytes word)]
  simp only [Word.toBytes, wordSize, littleEndianBytes, littleEndian, UInt8.toNat_ofNat']
  omega

end SyscallStream
