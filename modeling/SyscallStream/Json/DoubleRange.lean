import SyscallStream.Json

/-!
Which number literals stay within the range of a double. As many leading digits as fit make up a
64-bit significand; the others and the written exponent make up a power of ten. Significand and power
are each rounded to a double, and so is their product.
-/

namespace SyscallStream.Json

/-- The nearest number with 53 significant bits; of two, the one whose last bit is zero. -/
def roundToDouble (n : Nat) : Nat :=
  if n < 1 <<< 53 then n
  else
    let unit := 1 <<< (n.log2 - 52)
    let quotient := n / unit
    let remainder := n % unit
    let up := unit < 2 * remainder || (2 * remainder == unit && quotient % 2 == 1)
    (if up then quotient + 1 else quotient) * unit

/-- The least number that rounds to infinity. -/
def doubleOverflow : Nat := (1 <<< 1024) - (1 <<< 970)

def maxDecimalExponent : Nat := 308

/-- Appends digits to a significand while it fits in a word; also how many were left over. -/
def appendDigits : (significand : Nat) → (digits : List Char) → Nat × Nat
  | significand, [] => (significand, 0)
  | significand, digit :: digits =>
    let next := 10 * significand + (digit.toNat - '0'.toNat)
    if next < UInt64.size then appendDigits next digits else (significand, digits.length + 1)

def Number.scale (number : Number) : Nat × Int :=
  let (whole, dropped) := appendDigits 0 number.whole
  let (significand, ignored) := appendDigits whole number.fraction
  let places : Int := dropped + ignored - number.fraction.length
  let power : Int :=
    match number.exponent? with
    | none => 0
    | some exponent =>
      if exponent.negative then -digitsValue exponent.digits else digitsValue exponent.digits
  (significand, places + power)

/-- The literal does not overflow a double. Underflow is no fault. -/
def Number.inRange (number : Number) : Bool :=
  match number.scale with
  | (_, .negSucc _) => true
  | (significand, .ofNat power) =>
    significand == 0 ||
      (decide (power ≤ maxDecimalExponent) &&
        decide (roundToDouble significand * roundToDouble (Nat.pow 10 power) < doubleOverflow))

end SyscallStream.Json
