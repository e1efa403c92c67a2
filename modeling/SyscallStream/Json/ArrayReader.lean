import SyscallStream.Json.Scan

/-!
Reading a JSON array whose items have to be of a wanted shape.

The reader takes one token after the other and keeps the containers that are open inside the current
item. An item is looked at as soon as it is complete, so the first problem in the text decides.
-/

namespace SyscallStream.Json

/-- How many containers may not be open at once. -/
def tooDeep : Nat := 128

inductive Frame where
  | array (items : Array Json)
  | object (members : Array (String × Json)) (key : String)

inductive Wanted where
  | value
  | valueOrClose
  | key
  | keyOrClose
  | colon
  | separator
  | nothing
  deriving DecidableEq, Repr

structure ArrayReader (α : Type) where
  items : Array α := #[]
  /-- The containers open inside the current item, innermost first. -/
  frames : List Frame := []
  wanted : Wanted := .valueOrClose

namespace ArrayReader

variable {α : Type} (accept : Json → Option α)

def deliver (reader : ArrayReader α) (value : Json) : Except Fault (ArrayReader α) :=
  match reader.frames with
  | [] =>
    match accept value with
    | some item => .ok { reader with items := reader.items.push item, wanted := .separator }
    | none => .error .mismatched
  | .array items :: outer =>
    .ok { reader with frames := .array (items.push value) :: outer, wanted := .separator }
  | .object members key :: outer =>
    .ok { reader with
      frames := .object (members.push (key, value)) key :: outer, wanted := .separator }

def enter (reader : ArrayReader α) (frame : Frame) (wanted : Wanted) :
    Except Fault (ArrayReader α) :=
  if reader.frames.length + 2 < tooDeep then
    .ok { reader with frames := frame :: reader.frames, wanted }
  else .error .malformed

def startValue (reader : ArrayReader α) : Token → Except Fault (ArrayReader α)
  | .scalar value => deliver accept reader (.scalar value)
  | .openArray => reader.enter (.array #[]) .valueOrClose
  | .openObject => reader.enter (.object #[] "") .keyOrClose
  | _ => .error .malformed

def startMember (reader : ArrayReader α) : Token → Except Fault (ArrayReader α)
  | .scalar (.string name) =>
    match reader.frames with
    | .object members _ :: outer =>
      .ok { reader with frames := .object members name :: outer, wanted := .colon }
    | _ => .error .malformed
  | _ => .error .malformed

def closeArray (reader : ArrayReader α) : Except Fault (ArrayReader α) :=
  match reader.frames with
  | [] => .ok { reader with wanted := .nothing }
  | .array items :: outer => deliver accept { reader with frames := outer } (.array items.toList)
  | .object .. :: _ => .error .malformed

def closeObject (reader : ArrayReader α) : Except Fault (ArrayReader α) :=
  match reader.frames with
  | .object members _ :: outer =>
    deliver accept { reader with frames := outer } (.object members.toList)
  | _ => .error .malformed

def afterComma (reader : ArrayReader α) : Wanted :=
  match reader.frames with
  | .object .. :: _ => .key
  | _ => .value

def step (reader : ArrayReader α) (token : Token) : Except Fault (ArrayReader α) :=
  match reader.wanted with
  | .value => startValue accept reader token
  | .valueOrClose =>
    if token = .closeArray then closeArray accept reader else startValue accept reader token
  | .key => reader.startMember token
  | .keyOrClose =>
    if token = .closeObject then closeObject accept reader else reader.startMember token
  | .colon =>
    if token = .colon then .ok { reader with wanted := .value } else .error .malformed
  | .separator =>
    match token with
    | .comma => .ok { reader with wanted := reader.afterComma }
    | .closeArray => closeArray accept reader
    | .closeObject => closeObject accept reader
    | _ => .error .malformed
  | .nothing => .error .malformed

def finish (reader : ArrayReader α) (stop : Stop) : Except Fault (List α) :=
  match stop, reader.wanted with
  | .complete, .nothing => .ok reader.items.toList
  | .complete, _ => .error .ended
  | .brokenString fault, .value | .brokenString fault, .valueOrClose
  | .brokenString fault, .key | .brokenString fault, .keyOrClose => .error fault
  | .brokenScalar fault, .value | .brokenScalar fault, .valueOrClose => .error fault
  | _, _ => .error .malformed

end ArrayReader

def readArray {α : Type} (accept : Json → Option α) (text : String) : Except Fault (List α) :=
  let found := scan text
  match found.tokens with
  | .openArray :: tokens =>
    match tokens.foldlM (ArrayReader.step accept) {} with
    | .error fault => .error fault
    | .ok reader => reader.finish found.stop
  | .openObject :: _ | .scalar _ :: _ => .error .mismatched
  | _ :: _ => .error .malformed
  | [] =>
    match found.stop with
    | .complete => .error .ended
    | .brokenString fault | .brokenScalar fault => .error fault

end SyscallStream.Json
