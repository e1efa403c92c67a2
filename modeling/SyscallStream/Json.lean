/-!
JSON values as they are written: members keep their order and may repeat a key, and a number keeps
its digits.
-/

namespace SyscallStream

structure Json.Exponent where
  negative : Bool
  digits : List Char
  deriving DecidableEq, Repr

structure Json.Number where
  negative : Bool := false
  whole : List Char
  /-- The digits behind the point; empty if there is no point. -/
  fraction : List Char := []
  exponent? : Option Json.Exponent := none
  deriving DecidableEq, Repr

inductive Json.Scalar where
  | null
  | bool (value : Bool)
  | number (value : Json.Number)
  | string (value : String)
  deriving DecidableEq, Repr

inductive Json where
  | scalar (value : Json.Scalar)
  | array (items : List Json)
  | object (members : List (String × Json))

namespace Json

inductive Token where
  | openArray
  | closeArray
  | openObject
  | closeObject
  | comma
  | colon
  | scalar (value : Scalar)
  deriving DecidableEq, Repr

inductive Fault where
  /-- The text ends too early. -/
  | ended
  /-- The text is not JSON. -/
  | malformed
  /-- The value is not of the wanted shape. -/
  | mismatched
  deriving DecidableEq, Repr

def digitsValue (digits : List Char) : Nat :=
  digits.foldl (fun value digit => 10 * value + (digit.toNat - '0'.toNat)) 0

def Number.ofNat (n : Nat) : Number := { whole := Nat.toDigits 10 n }

/-- The value of a literal that is a plain 64-bit number: no sign, no point, no exponent. -/
def Number.word? (number : Number) : Option UInt64 :=
  if number.negative || !number.fraction.isEmpty || number.exponent?.isSome then none
  else
    let value := digitsValue number.whole
    if value < UInt64.size then some (UInt64.ofNat value) else none

def nat (n : Nat) : Json := .scalar (.number (.ofNat n))

def word (w : UInt64) : Json := nat w.toNat

def bool (b : Bool) : Json := .scalar (.bool b)

def string (s : String) : Json := .scalar (.string s)

end Json

end SyscallStream
