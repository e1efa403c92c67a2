import SyscallStream.Cursor
import SyscallStream.Packing

/-!
Reading one argument. An argument is read by a few steps: words and blobs are taken from the stream,
room is made for chunks, and words without a meaning are refused. The text of the reading is the
same whatever carries out the steps.
-/

namespace SyscallStream

/-- Chunks that were read, and the room that was made for them beforehand, which the array does not
show. -/
structure ChunkBuffer where
  room : Nat
  chunks : Array Chunk

def ChunkBuffer.withRoom (room : Nat) : ChunkBuffer where
  room := room
  chunks := .emptyWithCapacity room

def ChunkBuffer.push (buffer : ChunkBuffer) (chunk : Chunk) : ChunkBuffer :=
  { buffer with chunks := buffer.chunks.push chunk }

structure ArgSteps (m : Type → Type) where
  word : m UInt64
  blob (size : UInt64) : m Bytes
  reserve (count : UInt64) : m ChunkBuffer
  refuse {α : Type} (error : DecodeError) : m α

namespace ArgSteps

variable {m : Type → Type} [Monad m] (steps : ArgSteps m)

@[specialize]
def constArg : m ConstArg := do
  let layout ← steps.word
  let value ← steps.word
  return .ofLayout layout value

@[specialize]
def resultArg : m ResultArg := do
  let layout ← steps.word
  let index ← steps.word
  let divOp ← steps.word
  let addOp ← steps.word
  let fallback ← steps.word
  return .ofLayout layout index divOp addOp fallback

@[specialize]
def dataArg : m DataArg := do
  let word ← steps.word
  let bytes ← steps.blob (DataArg.sizeOfWord word)
  return { bytes, readable := DataArg.readableOfWord word }

@[specialize]
def chunk : m Chunk := do
  let kind ← steps.word
  let value ← steps.word
  let size ← steps.word
  return { kind := ⟨kind⟩, value, size }

@[specialize]
def chunks : (count : Nat) → (buffer : ChunkBuffer) → m ChunkBuffer
  | 0, buffer => return buffer
  | count + 1, buffer => do
    let chunk ← steps.chunk
    chunks count (buffer.push chunk)

@[specialize]
def checksumArg : m ChecksumArg := do
  let size ← steps.word
  let word ← steps.word
  match ChecksumKind.ofWord? word with
  | none => steps.refuse (.unknownChecksum word)
  | some kind =>
    let count ← steps.word
    let buffer ← steps.reserve count
    let buffer ← steps.chunks count.toNat buffer
    return { size, kind, chunks := buffer.chunks.toList }

@[specialize]
def arg : m Arg := do
  let word ← steps.word
  match ArgKind.ofWord? word with
  | some .const => return .const (← steps.constArg)
  | some .result => return .result (← steps.resultArg)
  | some .data => return .data (← steps.dataArg)
  | some .checksum => return .checksum (← steps.checksumArg)
  | none => steps.refuse (.badArgKind word)

end ArgSteps

/-- Room for `count` announced chunks: no more than the bytes that are left can hold. -/
def Chunk.capacity (cursor : Cursor) (count : UInt64) : Nat :=
  min count.toNat (cursor.remaining / (3 * wordSize))

def Chunk.reserve (count : UInt64) : Reader ChunkBuffer := do
  return .withRoom (Chunk.capacity (← get) count)

def Reader.steps : ArgSteps Reader where
  word := readWord
  blob := readBlob
  reserve := Chunk.reserve
  refuse error := throw error

def ConstArg.read : Reader ConstArg := Reader.steps.constArg

def ResultArg.read : Reader ResultArg := Reader.steps.resultArg

def DataArg.read : Reader DataArg := Reader.steps.dataArg

def Chunk.read : Reader Chunk := Reader.steps.chunk

def Chunk.readMany (count : Nat) (buffer : ChunkBuffer) : Reader ChunkBuffer :=
  Reader.steps.chunks count buffer

def ChecksumArg.read : Reader ChecksumArg := Reader.steps.checksumArg

def Arg.read : Reader Arg := Reader.steps.arg

theorem Chunk.readMany_zero (buffer : ChunkBuffer) : Chunk.readMany 0 buffer = pure buffer := rfl

theorem Chunk.readMany_succ (count : Nat) (buffer : ChunkBuffer) :
    Chunk.readMany (count + 1) buffer =
      Chunk.read >>= fun chunk => Chunk.readMany count (buffer.push chunk) := rfl

theorem ChecksumArg.read_eq : ChecksumArg.read = (do
    let size ← readWord
    let word ← readWord
    match ChecksumKind.ofWord? word with
    | none => throw (.unknownChecksum word)
    | some kind =>
      let count ← readWord
      let buffer ← Chunk.reserve count
      let buffer ← Chunk.readMany count.toNat buffer
      return { size, kind, chunks := buffer.chunks.toList }) := rfl

theorem Arg.read_eq : Arg.read = (do
    let word ← readWord
    match ArgKind.ofWord? word with
    | some .const => return .const (← ConstArg.read)
    | some .result => return .result (← ResultArg.read)
    | some .data => return .data (← DataArg.read)
    | some .checksum => return .checksum (← ChecksumArg.read)
    | none => throw (.badArgKind word)) := rfl

end SyscallStream
