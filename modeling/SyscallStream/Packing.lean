import SyscallStream.Program

/-!
Words that hold several fields of an argument.
-/

namespace SyscallStream

/-- Size, format, bit field and stride of a constant in one word, lowest first. -/
def ConstArg.layout (arg : ConstArg) : UInt64 :=
  UInt64.ofNat (arg.size.toNat + 0x100 * arg.format.code.toNat + 0x10000 * arg.bitfieldOffset.toNat +
    0x1000000 * arg.bitfieldLength.toNat + 0x100000000 * arg.pidStride.toNat)

def ConstArg.ofLayout (layout value : UInt64) : ConstArg where
  size := UInt8.ofNat layout.toNat
  format := ⟨UInt8.ofNat (layout.toNat / 0x100)⟩
  value := value
  bitfieldOffset := UInt8.ofNat (layout.toNat / 0x10000)
  bitfieldLength := UInt8.ofNat (layout.toNat / 0x1000000)
  pidStride := UInt32.ofNat (layout.toNat / 0x100000000)

def ResultArg.layout (arg : ResultArg) : UInt64 :=
  UInt64.ofNat (arg.size.toNat + 0x100 * arg.format.code.toNat)

/-- The bits above size and format are ignored. -/
def ResultArg.ofLayout (layout index divOp addOp fallback : UInt64) : ResultArg where
  size := UInt8.ofNat layout.toNat
  format := ⟨UInt8.ofNat (layout.toNat / 0x100)⟩
  index := index
  divOp := divOp
  addOp := addOp
  fallback := fallback

/-- Length and readability of a data argument in one word; the highest bit is the flag. -/
def DataArg.sizeWord (arg : DataArg) : UInt64 :=
  UInt64.ofNat (arg.bytes.length + if arg.readable then readableFlag.toNat else 0)

def DataArg.sizeOfWord (word : UInt64) : UInt64 := word % readableFlag

def DataArg.readableOfWord (word : UInt64) : Bool := decide (readableFlag ≤ word)

theorem ConstArg.ofLayout_layout (arg : ConstArg) : ConstArg.ofLayout arg.layout arg.value = arg := by
  have hs := arg.size.toNat_lt
  have hf := arg.format.code.toNat_lt
  have ho := arg.bitfieldOffset.toNat_lt
  have hl := arg.bitfieldLength.toNat_lt
  have hp := arg.pidStride.toNat_lt
  obtain ⟨size, ⟨format⟩, value, offset, length, stride⟩ := arg
  simp only at hs hf ho hl hp
  simp only [ofLayout, layout, mk.injEq, NumberFormat.mk.injEq, true_and, UInt64.toNat_ofNat',
    ← UInt8.toNat_inj, ← UInt32.toNat_inj, UInt8.toNat_ofNat', UInt32.toNat_ofNat']
  omega

theorem ConstArg.layout_ofLayout (layout value : UInt64) :
    (ConstArg.ofLayout layout value).layout = layout := by
  have hw := layout.toNat_lt
  apply UInt64.toNat_inj.mp
  simp only [ofLayout, ConstArg.layout, UInt64.toNat_ofNat', UInt8.toNat_ofNat', UInt32.toNat_ofNat']
  omega

theorem ResultArg.ofLayout_layout (arg : ResultArg) :
    ResultArg.ofLayout arg.layout arg.index arg.divOp arg.addOp arg.fallback = arg := by
  have hs := arg.size.toNat_lt
  have hf := arg.format.code.toNat_lt
  obtain ⟨size, ⟨format⟩, index, divOp, addOp, fallback⟩ := arg
  simp only at hs hf
  simp only [ofLayout, layout, mk.injEq, NumberFormat.mk.injEq, and_true, UInt64.toNat_ofNat',
    ← UInt8.toNat_inj, UInt8.toNat_ofNat']
  omega

theorem DataArg.toNat_readableFlag : readableFlag.toNat = 0x8000000000000000 := rfl

theorem DataArg.toNat_sizeOfWord_lt (word : UInt64) : (DataArg.sizeOfWord word).toNat < readableFlag.toNat := by
  rw [sizeOfWord, UInt64.toNat_mod, toNat_readableFlag]
  omega

theorem DataArg.ofWord_sizeWord (arg : DataArg) (short : arg.bytes.length < readableFlag.toNat) :
    (DataArg.sizeOfWord arg.sizeWord).toNat = arg.bytes.length ∧
      DataArg.readableOfWord arg.sizeWord = arg.readable := by
  rw [toNat_readableFlag] at short
  have value : arg.sizeWord.toNat = arg.bytes.length + if arg.readable then 0x8000000000000000 else 0 := by
    rw [sizeWord, UInt64.toNat_ofNat', toNat_readableFlag]
    split <;> omega
  constructor
  · rw [sizeOfWord, UInt64.toNat_mod, value, toNat_readableFlag]
    split <;> omega
  · simp only [readableOfWord, UInt64.le_iff_toNat_le, value, toNat_readableFlag]
    cases arg.readable <;> simp
    omega

end SyscallStream
