import SyscallStream.Packing

/-!
The canonical stream of a program: every call as its copyins, its leading word with index and
arguments, and its copyouts. Data is filled up with zeros to whole words.
-/

namespace SyscallStream

def encodeWords (words : List UInt64) : Bytes := words.flatMap Word.toBytes

def padding (size : Nat) : Bytes := List.replicate (roundUp size - size) 0

def Chunk.encode (chunk : Chunk) : Bytes := encodeWords [chunk.kind.code, chunk.value, chunk.size]

def Arg.encode : Arg → Bytes
  | .const arg => encodeWords [ArgKind.const.word, arg.layout, arg.value]
  | .result arg =>
    encodeWords [ArgKind.result.word, arg.layout, arg.index, arg.divOp, arg.addOp, arg.fallback]
  | .data arg =>
    encodeWords [ArgKind.data.word, arg.sizeWord] ++ (arg.bytes ++ padding arg.bytes.length)
  | .checksum arg =>
    encodeWords [ArgKind.checksum.word, arg.size, arg.kind.word, UInt64.ofNat arg.chunks.length] ++
      arg.chunks.flatMap Chunk.encode

def Copyin.encode (copyin : Copyin) : Bytes :=
  encodeWords [copyinWord, copyin.addr] ++ copyin.arg.encode

def Copyout.encode (copyout : Copyout) : Bytes :=
  encodeWords [copyoutWord, copyout.index, copyout.addr, copyout.size]

def Call.encode (call : Call) : Bytes :=
  call.copyin.flatMap Copyin.encode ++
    (encodeWords [call.syscall.id, call.index, UInt64.ofNat call.args.length] ++
      (call.args.flatMap Arg.encode ++ call.copyout.flatMap Copyout.encode))

def Program.encode (program : Program) : Bytes :=
  program.calls.flatMap Call.encode ++ encodeWords [stopWord]

@[simp]
theorem length_encodeWords (words : List UInt64) :
    (encodeWords words).length = words.length * wordSize := by
  induction words with
  | nil => simp [encodeWords]
  | cons word words ih =>
    simp only [encodeWords, List.flatMap_cons, List.length_append, Word.length_toBytes,
      List.length_cons, Nat.add_one_mul] at ih ⊢
    omega

theorem length_padding (size : Nat) : size + (padding size).length = roundUp size := by
  have := le_roundUp size
  simp [padding]
  omega

end SyscallStream
