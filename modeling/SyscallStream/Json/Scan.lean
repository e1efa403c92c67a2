import SyscallStream.Json.Scanner

/-!
Splitting a JSON text into tokens.

A text is split as far as it can be; what stops it is kept, because it is a fault only for a reader
that gets there.
-/

namespace SyscallStream.Json

def isBlank (c : Char) : Bool := c == ' ' || c == '\n' || c == '\t' || c == '\r'

def punctuation? (c : Char) : Option Token :=
  if c = '[' then some .openArray
  else if c = ']' then some .closeArray
  else if c = '\x7b' then some .openObject
  else if c = '\x7d' then some .closeObject
  else if c = ',' then some .comma
  else if c = ':' then some .colon
  else none

inductive Stop where
  | complete
  | brokenString (fault : Fault)
  | brokenScalar (fault : Fault)
  deriving DecidableEq, Repr

structure Scan where
  tokens : List Token
  stop : Stop
  deriving DecidableEq, Repr

def scanRest (found : Array Token) (rest : List Char) : Scan :=
  match rest with
  | [] => ⟨found.toList, .complete⟩
  | c :: more =>
    if isBlank c then scanRest found more
    else
      match punctuation? c with
      | some token => scanRest (found.push token) more
      | none =>
        match ran : Scanner.scalar (c :: more) with
        | .ok value left =>
          have : left.length < more.length + 1 := Scanner.scalar_takes _ _ _ ran
          scanRest (found.push (.scalar value)) left
        | .error fault _ =>
          ⟨found.toList, if c = '"' then .brokenString fault else .brokenScalar fault⟩
termination_by rest.length

def scan (text : String) : Scan := scanRest #[] text.toList

end SyscallStream.Json
