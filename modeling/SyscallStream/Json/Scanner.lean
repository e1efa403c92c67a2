import SyscallStream.Json.DoubleRange
import SyscallStream.Progress

/-!
Reading the literals of a JSON text: words, numbers and strings.
-/

namespace SyscallStream.Json

abbrev Scanner := EStateM Fault (List Char)

namespace Scanner

def unexpected (rest : List Char) : Fault := if rest.isEmpty then .ended else .malformed

def next : Scanner Char
  | [] => .error .ended []
  | c :: rest => .ok c rest

def skip? (accepted : Char → Bool) : Scanner Bool
  | [] => .ok false []
  | c :: rest => if accepted c then .ok true rest else .ok false (c :: rest)

def expect : List Char → Scanner Unit
  | [] => return
  | c :: more => do
    let d ← next
    if c = d then expect more else throw .malformed

def digits : Scanner (List Char) := fun rest =>
  match rest.takeWhile Char.isDigit with
  | [] => .error (unexpected rest) rest
  | digit :: row => .ok (digit :: row) (rest.dropWhile Char.isDigit)

/-- The digits of a whole number: a leading zero stands alone. -/
def whole : Scanner (List Char) := do
  let row ← digits
  match row with
  | '0' :: _ :: _ => throw .malformed
  | _ => return row

def fraction : Scanner (List Char) := do
  if ← skip? (· == '.') then digits else return []

def sign : Scanner Bool := do
  if ← skip? (· == '-') then return true
  else
    let _ ← skip? (· == '+')
    return false

def exponent : Scanner (Option Exponent) := do
  if ← skip? (fun c => c == 'e' || c == 'E') then
    return some { negative := ← sign, digits := ← digits }
  else return none

def ranged (literal : Number) : Scanner Number :=
  if literal.inRange then return literal else throw .malformed

def number : Scanner Number := do
  let negative ← skip? (· == '-')
  let whole ← whole
  let fraction ← fraction
  let exponent? ← exponent
  ranged { negative, whole, fraction, exponent? }

def hexDigit? (c : Char) : Option Nat :=
  if c.isDigit then some (c.toNat - '0'.toNat)
  else if 'a' ≤ c && c ≤ 'f' then some (c.toNat - 'a'.toNat + 10)
  else if 'A' ≤ c && c ≤ 'F' then some (c.toNat - 'A'.toNat + 10)
  else none

/-- Four hexadecimal digits. A text with less than four bytes left has ended, whatever they are. -/
def hexUnit : Scanner Nat := fun rest =>
  match rest with
  | a :: b :: c :: d :: more =>
    match hexDigit? a, hexDigit? b, hexDigit? c, hexDigit? d with
    | some a, some b, some c, some d => .ok (((a * 16 + b) * 16 + c) * 16 + d) more
    | _, _, _, _ => .error .malformed rest
  | short =>
    let size := short.foldl (fun size c => size + c.utf8Size) 0
    .error (if size < 4 then .ended else .malformed) rest

def isHighSurrogate (unit : Nat) : Bool := decide (0xd800 ≤ unit ∧ unit < 0xdc00)

def isLowSurrogate (unit : Nat) : Bool := decide (0xdc00 ≤ unit ∧ unit < 0xe000)

/-- The character of an escape behind `\u`; a high surrogate needs a low one after it. -/
def unicodeEscape : Scanner Char := do
  let unit ← hexUnit
  if isLowSurrogate unit then throw .malformed
  else if isHighSurrogate unit then
    expect ['\\', 'u']
    let low ← hexUnit
    if isLowSurrogate low then
      return Char.ofNat (0x10000 + (unit - 0xd800) * 0x400 + (low - 0xdc00))
    else throw .malformed
  else return Char.ofNat unit

def escape : Scanner Char := do
  match ← next with
  | '"' => return '"'
  | '\\' => return '\\'
  | '/' => return '/'
  | 'b' => return '\x08'
  | 'f' => return '\x0c'
  | 'n' => return '\n'
  | 'r' => return '\r'
  | 't' => return '\t'
  | 'u' => unicodeEscape
  | _ => throw .malformed

theorem next_takes : Takes List.length 1 next := by
  intro s c t run
  cases s with
  | nil => cases run
  | cons c s => cases run; exact Nat.le_refl _

theorem skip?_takes (accepted : Char → Bool) : Takes List.length 0 (skip? accepted) := by
  intro s b t run
  unfold skip? at run
  split at run
  · cases run; exact Nat.le_refl _
  · split at run <;> cases run <;> simp

theorem expect_takes (text : List Char) : Takes List.length 0 (expect text) := by
  induction text with
  | nil => exact .pure _
  | cons c more ih =>
    refine (next_takes.bind (n := 0) fun d => ?_).weaken (Nat.zero_le _)
    split
    · exact ih
    · exact .throw _

theorem digits_takes : Takes List.length 1 digits := by
  intro s row t run
  unfold digits at run
  split at run
  · cases run
  · rename_i first more found
    cases run
    have parts := congrArg List.length (List.takeWhile_append_dropWhile (p := Char.isDigit) (l := s))
    simp only [found, List.length_append, List.length_cons] at parts
    omega

theorem whole_takes : Takes List.length 1 whole := by
  refine digits_takes.bind (n := 0) fun row => ?_
  split
  · exact .throw _
  · exact .pure _

theorem fraction_takes : Takes List.length 0 fraction := by
  refine (skip?_takes _).bind (n := 0) fun found => ?_
  split
  · exact digits_takes.weaken (Nat.zero_le _)
  · exact .pure _

theorem sign_takes : Takes List.length 0 sign := by
  refine (skip?_takes _).bind (n := 0) fun minus => ?_
  split
  · exact .pure _
  · exact (skip?_takes _).bind fun _ => .pure _

theorem exponent_takes : Takes List.length 0 exponent := by
  refine (skip?_takes _).bind (n := 0) fun found => ?_
  split
  · exact (sign_takes.bind fun _ => digits_takes.bind fun _ => .pure _).weaken (Nat.zero_le _)
  · exact .pure _

theorem ranged_takes (literal : Number) : Takes List.length 0 (ranged literal) := by
  unfold ranged
  split
  · exact .pure _
  · exact .throw _

theorem number_takes : Takes List.length 1 number :=
  ((skip?_takes _).bind fun _ => whole_takes.bind fun _ => fraction_takes.bind fun _ =>
    exponent_takes.bind fun _ => ranged_takes _).weaken (by decide)

theorem hexUnit_takes : Takes List.length 0 hexUnit := by
  intro s unit t run
  unfold hexUnit at run
  split at run
  · split at run
    · cases run; simp; omega
    · cases run
  · cases run

theorem unicodeEscape_takes : Takes List.length 0 unicodeEscape := by
  refine hexUnit_takes.bind (n := 0) fun unit => ?_
  split
  · exact .throw _
  · split
    · refine (expect_takes _).bind (n := 0) fun _ => hexUnit_takes.bind (n := 0) fun low => ?_
      split
      · exact .pure _
      · exact .throw _
    · exact .pure _

theorem escape_takes : Takes List.length 1 escape := by
  refine next_takes.bind (n := 0) fun c => ?_
  split
  case h_9 => exact unicodeEscape_takes
  case h_10 => exact .throw _
  all_goals exact .pure _

def string (text : String) (rest : List Char) : EStateM.Result Fault (List Char) String :=
  match rest with
  | [] => .error .ended []
  | '"' :: more => .ok text more
  | '\\' :: more =>
    match ran : escape more with
    | .error fault left => .error fault left
    | .ok c left =>
      have : left.length < more.length := escape_takes _ _ _ ran
      string (text.push c) left
  | c :: more => if c.toNat < 0x20 then .error .malformed rest else string (text.push c) more
termination_by rest.length

theorem string_takes (text : String) : Takes List.length 1 (string text) := by
  intro s literal t run
  fun_induction string text s with
  | case1 => cases run
  | case2 => cases run; exact Nat.le_refl _
  | case3 => cases run
  | case4 _ _ _ _ _ shorter ih => have := ih run; simp only [List.length_cons]; omega
  | case5 => cases run
  | case6 _ _ _ _ _ _ ih => have := ih run; simp only [List.length_cons]; omega

def keyword (rest : List Char) (value : Scalar) : Scanner Scalar := do
  expect rest
  return value

def scalar : Scanner Scalar
  | [] => .error .ended []
  | c :: more =>
    if c = '"' then (Scalar.string <$> (show Scanner String from string "") : Scanner Scalar) more
    else if c = 't' then keyword ['r', 'u', 'e'] (.bool true) more
    else if c = 'f' then keyword ['a', 'l', 's', 'e'] (.bool false) more
    else if c = 'n' then keyword ['u', 'l', 'l'] .null more
    else if c = '-' || c.isDigit then (Scalar.number <$> number : Scanner Scalar) (c :: more)
    else .error .malformed (c :: more)

theorem keyword_takes (rest : List Char) (value : Scalar) :
    Takes List.length 0 (keyword rest value) :=
  (expect_takes rest).bind fun _ => .pure _

theorem scalar_takes : Takes List.length 1 scalar := by
  intro s value t run
  cases s with
  | nil => cases run
  | cons c more =>
    simp only [scalar] at run
    simp only [List.length_cons]
    split at run
    · have := (string_takes "").map Scalar.string _ _ _ run; omega
    · split at run
      · have := keyword_takes _ _ _ _ _ run; omega
      · split at run
        · have := keyword_takes _ _ _ _ _ run; omega
        · split at run
          · have := keyword_takes _ _ _ _ _ run; omega
          · split at run
            · have := number_takes.map Scalar.number _ _ _ run
              simp only [List.length_cons] at this
              omega
            · cases run

end Scanner

end SyscallStream.Json
