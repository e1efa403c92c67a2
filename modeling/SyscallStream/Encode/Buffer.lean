import SyscallStream.Encode

/-!
Writing behind what a buffer holds already, item by item.
-/

namespace SyscallStream

abbrev Buffer := Array UInt8

namespace Buffer

def pushWord (out : Buffer) (word : UInt64) : Buffer := out ++ Word.toBytes word

def pushWords (out : Buffer) (words : List UInt64) : Buffer := words.foldl pushWord out

def resize (out : Buffer) (size : Nat) : Buffer :=
  if size ≤ out.size then out.take size else out ++ Array.replicate (size - out.size) 0

end Buffer

def Chunk.encodeInto (out : Buffer) (chunk : Chunk) : Buffer :=
  out.pushWords [chunk.kind.code, chunk.value, chunk.size]

/-- Writes an argument. Data is filled up by its own length, wherever it starts in the buffer. -/
def Arg.encodeInto (out : Buffer) : Arg → Buffer
  | .const arg => out.pushWords [ArgKind.const.word, arg.layout, arg.value]
  | .result arg =>
    out.pushWords
      [ArgKind.result.word, arg.layout, arg.index, arg.divOp, arg.addOp, arg.fallback]
  | .data arg =>
    let size := arg.bytes.length
    let out := out.pushWords [ArgKind.data.word, arg.sizeWord] ++ arg.bytes
    Buffer.resize out (out.size + (roundUp size - size))
  | .checksum arg =>
    arg.chunks.foldl Chunk.encodeInto (out.pushWords
      [ArgKind.checksum.word, arg.size, arg.kind.word, UInt64.ofNat arg.chunks.length])

def Copyin.encodeInto (out : Buffer) (copyin : Copyin) : Buffer :=
  copyin.arg.encodeInto (out.pushWords [copyinWord, copyin.addr])

def Copyout.encodeInto (out : Buffer) (copyout : Copyout) : Buffer :=
  out.pushWords [copyoutWord, copyout.index, copyout.addr, copyout.size]

def Call.encodeInto (out : Buffer) (call : Call) : Buffer :=
  let out := call.copyin.foldl Copyin.encodeInto out
  let out := out.pushWords [call.syscall.id, call.index, UInt64.ofNat call.args.length]
  let out := call.args.foldl Arg.encodeInto out
  call.copyout.foldl Copyout.encodeInto out

def Program.encodeInto (out : Buffer) (program : Program) : Buffer :=
  (program.calls.foldl Call.encodeInto out).pushWord stopWord

namespace Buffer

variable {α : Type}

@[simp]
theorem toList_pushWord (out : Buffer) (word : UInt64) :
    (out.pushWord word).toList = out.toList ++ Word.toBytes word := by
  simp [pushWord]

theorem toList_foldl {write : Buffer → α → Buffer} {encode : α → Bytes}
    (adds : ∀ out item, (write out item).toList = out.toList ++ encode item) (out : Buffer)
    (items : List α) : (items.foldl write out).toList = out.toList ++ items.flatMap encode := by
  induction items generalizing out with
  | nil => simp
  | cons item items ih =>
    rw [List.foldl_cons, ih, adds, List.flatMap_cons, List.append_assoc]

@[simp]
theorem toList_pushWords (out : Buffer) (words : List UInt64) :
    (out.pushWords words).toList = out.toList ++ encodeWords words :=
  toList_foldl toList_pushWord out words

@[simp]
theorem toList_resize_add (out : Buffer) (count : Nat) :
    (out.resize (out.size + count)).toList = out.toList ++ List.replicate count 0 := by
  unfold resize
  by_cases none : count = 0
  · simp [none]
  · rw [if_neg (by omega), Array.toList_append, Array.toList_replicate, Nat.add_sub_cancel_left]

end Buffer

theorem Chunk.toList_encodeInto (out : Buffer) (chunk : Chunk) :
    (chunk.encodeInto out).toList = out.toList ++ chunk.encode :=
  Buffer.toList_pushWords out _

theorem Arg.toList_encodeInto (out : Buffer) (arg : Arg) :
    (arg.encodeInto out).toList = out.toList ++ arg.encode := by
  cases arg with
  | const arg => exact Buffer.toList_pushWords out _
  | result arg => exact Buffer.toList_pushWords out _
  | data arg => simp [Arg.encodeInto, Arg.encode, padding]
  | checksum arg =>
    rw [Arg.encodeInto, Buffer.toList_foldl Chunk.toList_encodeInto, Buffer.toList_pushWords,
      Arg.encode, List.append_assoc]

theorem Copyin.toList_encodeInto (out : Buffer) (copyin : Copyin) :
    (copyin.encodeInto out).toList = out.toList ++ copyin.encode := by
  rw [Copyin.encodeInto, Arg.toList_encodeInto, Buffer.toList_pushWords, Copyin.encode,
    List.append_assoc]

theorem Copyout.toList_encodeInto (out : Buffer) (copyout : Copyout) :
    (copyout.encodeInto out).toList = out.toList ++ copyout.encode :=
  Buffer.toList_pushWords out _

theorem Call.toList_encodeInto (out : Buffer) (call : Call) :
    (call.encodeInto out).toList = out.toList ++ call.encode := by
  simp only [Call.encodeInto, Call.encode, Buffer.toList_foldl Copyin.toList_encodeInto,
    Buffer.toList_foldl Arg.toList_encodeInto, Buffer.toList_foldl Copyout.toList_encodeInto,
    Buffer.toList_pushWords, List.append_assoc]

theorem Program.toList_encodeInto (out : Buffer) (program : Program) :
    (program.encodeInto out).toList = out.toList ++ program.encode := by
  rw [Program.encodeInto, Buffer.toList_pushWord, Buffer.toList_foldl Call.toList_encodeInto,
    Program.encode, List.append_assoc]
  simp [encodeWords]

end SyscallStream
