import SyscallStream.Proofs.JsonText

/-! How a JSON value may be written. A character of a string has several spellings, a number its own
digits with some freedom in front of its exponent, and blanks may stand between any two tokens. What
is written so is read as the scalar that was meant. -/

namespace SyscallStream.Json

section Grammar

def HexDigit (value : Nat) (c : Char) : Prop :=
  value < 16 ∧ (c = Nat.digitChar value ∨ c = (Nat.digitChar value).toUpper)

instance (value : Nat) (c : Char) : Decidable (HexDigit value c) :=
  inferInstanceAs (Decidable (_ ∧ _))

inductive HexUnit : Nat → List Char → Prop
  | intro {i j k l : Nat} {a b c d : Char} (first : HexDigit i a) (second : HexDigit j b)
      (third : HexDigit k c) (fourth : HexDigit l d) :
      HexUnit (((i * 16 + j) * 16 + k) * 16 + l) [a, b, c, d]

def shortEscapes : List (Char × Char) :=
  [('"', '"'), ('\\', '\\'), ('/', '/'), ('b', '\x08'), ('f', '\x0c'), ('n', '\n'), ('r', '\r'),
    ('t', '\t')]

inductive CharText (c : Char) : List Char → Prop
  | itself (quote : c ≠ '"') (backslash : c ≠ '\\') (printable : ¬ c.toNat < 0x20) : CharText c [c]
  | short {letter : Char} (known : (letter, c) ∈ shortEscapes) : CharText c ['\\', letter]
  | unit {digits : List Char} (hex : HexUnit c.toNat digits) : CharText c ('\\' :: 'u' :: digits)
  | pair {high low : Nat} {front back : List Char} (first : HexUnit (0xd800 + high) front)
      (second : HexUnit (0xdc00 + low) back) (narrow : high < 0x400) (short : low < 0x400)
      (stands : c.toNat = 0x10000 + high * 0x400 + low) :
      CharText c ('\\' :: 'u' :: (front ++ '\\' :: 'u' :: back))

inductive CharsText : List Char → List Char → Prop
  | nil : CharsText [] []
  | cons {c : Char} {cs form text : List Char} (first : CharText c form)
      (rest : CharsText cs text) : CharsText (c :: cs) (form ++ text)

def Digits (row : List Char) : Prop := row ≠ [] ∧ ∀ c ∈ row, c.isDigit = true

instance (row : List Char) : Decidable (Digits row) :=
  decidable_of_iff (row ≠ [] ∧ row.all Char.isDigit = true) (by rw [Digits, List.all_eq_true])

def wholeText (number : Number) : List Char :=
  (if number.negative then ['-'] else []) ++ number.whole

def fractionText (row : List Char) : List Char := if row.isEmpty then [] else '.' :: row

inductive SignText : Bool → List Char → Prop
  | minus : SignText true ['-']
  | plus : SignText false ['+']
  | none : SignText false []

inductive ExponentText : Option Exponent → List Char → Prop
  | none : ExponentText none []
  | some {exponent : Exponent} {mark : Char} {sign : List Char} (letter : mark = 'e' ∨ mark = 'E')
      (signed : SignText exponent.negative sign) (digits : Digits exponent.digits) :
      ExponentText (some exponent) (mark :: (sign ++ exponent.digits))

/-- A number literal. A leading zero stands alone. -/
inductive NumberText (number : Number) : List Char → Prop
  | intro {power : List Char} (whole : Digits number.whole)
      (leading : number.whole.head? = some '0' → number.whole = ['0'])
      (fraction : ∀ c ∈ number.fraction, c.isDigit = true)
      (exponent : ExponentText number.exponent? power) :
      NumberText number (wholeText number ++ (fractionText number.fraction ++ power))

inductive ScalarText (fits : Number → Prop) : Scalar → List Char → Prop
  | null : ScalarText fits .null ['n', 'u', 'l', 'l']
  | true : ScalarText fits (.bool true) ['t', 'r', 'u', 'e']
  | false : ScalarText fits (.bool false) ['f', 'a', 'l', 's', 'e']
  | number {number : Number} {text : List Char} (ranged : fits number)
      (written : NumberText number text) : ScalarText fits (.number number) text
  | string {s : String} {text : List Char} (written : CharsText s.toList text) :
      ScalarText fits (.string s) ('"' :: (text ++ ['"']))

def Token.isMark : Token → Bool
  | .scalar _ => false
  | _ => true

inductive TokenText (fits : Number → Prop) : Token → List Char → Prop
  | scalar {value : Scalar} {text : List Char} (written : ScalarText fits value text) :
      TokenText fits (.scalar value) text
  | mark {token : Token} (bare : token.isMark = true) : TokenText fits token token.text.toList

inductive Laid (fits : Number → Prop) : List Token → List Char → Prop
  | nil {blanks : List Char} (blank : Blank blanks) : Laid fits [] blanks
  | cons {token : Token} {tokens : List Token} {blanks word text : List Char}
      (blank : Blank blanks) (written : TokenText fits token word) (rest : Laid fits tokens text) :
      Laid fits (token :: tokens) (blanks ++ (word ++ text))

end Grammar

namespace Scanner

/-- The scanner takes the text and gives the value, if what follows is fit to end it. -/
def Reads {α : Type} (scanner : Scanner α) (ends : List Char → Prop) (text : List Char) (a : α) :
    Prop :=
  ∀ rest, ends rest → scanner (text ++ rest) = .ok a rest

namespace Reads

variable {α β : Type} {step : Scanner α} {next : α → Scanner β} {ends middle : List Char → Prop}
  {text more : List Char} {a : α} {b : β}

theorem pure (ends : List Char → Prop) (a : α) : Reads (Pure.pure a) ends [] a :=
  fun _ _ => rfl

theorem bind (first : Reads step middle text a) (second : Reads (next a) ends more b)
    (joint : ∀ rest, ends rest → middle (more ++ rest)) :
    Reads (step >>= next) ends (text ++ more) b := by
  intro rest ended
  have taken := first (more ++ rest) (joint rest ended)
  rw [List.append_assoc]
  change EStateM.bind step next (text ++ (more ++ rest)) = _
  unfold EStateM.bind
  rw [taken]
  exact second rest ended

theorem weaken (reads : Reads step middle text a) (enough : ∀ rest, ends rest → middle rest) :
    Reads step ends text a :=
  fun rest ended => reads rest (enough rest ended)

theorem map (f : α → β) (reads : Reads step ends text a) : Reads (f <$> step) ends text (f a) := by
  intro rest ended
  change EStateM.map f step (text ++ rest) = _
  unfold EStateM.map
  rw [reads rest ended]

theorem andThen (first : Reads step Anything text a) (second : Reads (next a) ends more b) :
    Reads (step >>= next) ends (text ++ more) b :=
  first.bind second fun _ _ => trivial

theorem ending (first : Reads step ends text a) (last : next a = Pure.pure b) :
    Reads (step >>= next) ends text b := by
  intro rest ended
  change EStateM.bind step next (text ++ rest) = _
  unfold EStateM.bind
  rw [first rest ended]
  simp only [last]
  rfl

end Reads

section Strings

theorem hexDigit?_of_hexDigit {value : Nat} {c : Char} (digit : HexDigit value c) :
    hexDigit? c = some value := by
  rcases digit with ⟨small, rfl | rfl⟩
  · exact hexDigit?_digitChar value small
  · revert small
    revert value
    decide

theorem hexUnit_reads {value : Nat} {digits : List Char} (hex : HexUnit value digits) :
    Reads hexUnit Anything digits value := by
  intro rest _
  cases hex with
  | intro first second third fourth =>
    simp only [List.cons_append, List.nil_append, hexUnit, hexDigit?_of_hexDigit first,
      hexDigit?_of_hexDigit second, hexDigit?_of_hexDigit third, hexDigit?_of_hexDigit fourth]

theorem expect_reads (text : List Char) : Reads (expect text) Anything text () := by
  intro rest _
  induction text with
  | nil => rfl
  | cons c text ih =>
    rw [expect]
    change EStateM.bind next _ (c :: (text ++ rest)) = _
    simp only [EStateM.bind, next, if_true]
    exact ih

theorem not_surrogate (c : Char) : c.toNat < 0xd800 ∨ 0xdfff < c.toNat :=
  c.valid.imp id And.left

theorem unicodeEscape_unit {c : Char} {digits : List Char} (hex : HexUnit c.toNat digits) :
    Reads unicodeEscape Anything digits c := by
  have whole := not_surrogate c
  have low : isLowSurrogate c.toNat = false := by
    rw [isLowSurrogate, decide_eq_false_iff_not]
    omega
  have high : isHighSurrogate c.toNat = false := by
    rw [isHighSurrogate, decide_eq_false_iff_not]
    omega
  apply (hexUnit_reads hex).ending
  simp only [low, high, Char.ofNat_toNat]
  rfl

theorem unicodeEscape_pair {c : Char} {high low : Nat} {front back : List Char}
    (first : HexUnit (0xd800 + high) front) (second : HexUnit (0xdc00 + low) back)
    (narrow : high < 0x400) (short : low < 0x400)
    (stands : c.toNat = 0x10000 + high * 0x400 + low) :
    Reads unicodeEscape Anything (front ++ '\\' :: 'u' :: back) c := by
  have notLow : isLowSurrogate (0xd800 + high) = false := by
    rw [isLowSurrogate, decide_eq_false_iff_not]
    omega
  have isHigh : isHighSurrogate (0xd800 + high) = true := by
    rw [isHighSurrogate, decide_eq_true_iff]
    omega
  have isLow : isLowSurrogate (0xdc00 + low) = true := by
    rw [isLowSurrogate, decide_eq_true_iff]
    omega
  have joined : Char.ofNat (0x10000 + (0xd800 + high - 0xd800) * 0x400 + (0xdc00 + low - 0xdc00)) =
      c := by
    rw [Nat.add_sub_cancel_left, Nat.add_sub_cancel_left, ← stands, Char.ofNat_toNat]
  apply (hexUnit_reads first).andThen
  simp only [notLow, isHigh, if_true, if_false, Bool.false_eq_true]
  apply (expect_reads ['\\', 'u']).andThen
  apply (hexUnit_reads second).ending
  simp only [isLow, if_true, joined]

theorem string_charText {c : Char} {form : List Char} (written : CharText c form) (text : String)
    (rest : List Char) : string text (form ++ rest) = string (text.push c) rest := by
  cases written with
  | itself quote backslash printable => exact string_itself text rest quote backslash printable
  | short known =>
    apply string_backslash
    simp only [shortEscapes, List.mem_cons, Prod.mk.injEq, List.not_mem_nil, or_false] at known
    rcases known with ⟨rfl, rfl⟩ | ⟨rfl, rfl⟩ | ⟨rfl, rfl⟩ | ⟨rfl, rfl⟩ | ⟨rfl, rfl⟩ | ⟨rfl, rfl⟩ |
      ⟨rfl, rfl⟩ | ⟨rfl, rfl⟩
    all_goals rfl
  | unit hex => exact string_backslash text (unicodeEscape_unit hex rest trivial)
  | pair first second narrow short stands =>
    exact string_backslash text (unicodeEscape_pair first second narrow short stands rest trivial)

theorem string_reads {cs text : List Char} (written : CharsText cs text) (front : String) :
    Reads (string front) Anything (text ++ ['"']) (front ++ String.ofList cs) := by
  intro rest _
  induction written generalizing front with
  | nil =>
    rw [List.nil_append, List.singleton_append, string.eq_def]
    simp
  | cons first _ ih =>
    rw [List.append_assoc, List.append_assoc, string_charText first, ← List.append_assoc, ih]
    congr 1
    apply String.toList_inj.mp
    simp

end Strings

section Numbers

def numberChar (c : Char) : Bool := c.isDigit || c == '.' || c == 'e' || c == 'E'

theorem skip?_of_fits {accepted : Char → Bool} {c : Char} (fits : accepted c = true)
    (rest : List Char) : skip? accepted (c :: rest) = .ok true rest := by
  simp only [skip?, fits, if_true]

theorem skip?_of_stops {accepted : Char → Bool} {rest : List Char} (stops : Stops accepted rest) :
    skip? accepted rest = .ok false rest := by
  cases rest with
  | nil => rfl
  | cons c rest => simp only [skip?, stops c rfl, if_false, Bool.false_eq_true]

section Choice

variable {α : Type} {accepted : Char → Bool} {yes no : Scanner α} {ends : List Char → Prop}
  {text : List Char} {a : α}

theorem Reads.found {c : Char} (reads : Reads yes ends text a) (fits : accepted c = true) :
    Reads (skip? accepted >>= fun found => if found then yes else no) ends (c :: text) a := by
  intro rest ended
  change EStateM.bind (skip? accepted) _ (c :: (text ++ rest)) = _
  simp only [EStateM.bind, skip?_of_fits fits, if_true]
  exact reads rest ended

theorem Reads.missed (reads : Reads no ends text a)
    (apart : ∀ rest, ends rest → Stops accepted (text ++ rest)) :
    Reads (skip? accepted >>= fun found => if found then yes else no) ends text a := by
  intro rest ended
  change EStateM.bind (skip? accepted) _ (text ++ rest) = _
  simp only [EStateM.bind, skip?_of_stops (apart rest ended), if_false, Bool.false_eq_true]
  exact reads rest ended

end Choice

theorem digits_reads {row : List Char} (digits : Digits row) :
    Reads Scanner.digits (Stops Char.isDigit) row row := by
  intro rest stops
  have taken : (row ++ rest).takeWhile Char.isDigit = row := takeWhile_run digits.2 stops
  have left : (row ++ rest).dropWhile Char.isDigit = rest := by
    have parts := List.takeWhile_append_dropWhile (p := Char.isDigit) (l := row ++ rest)
    rw [taken] at parts
    exact List.append_cancel_left parts
  unfold Scanner.digits
  rw [taken, left]
  cases row with
  | nil => exact absurd rfl digits.1
  | cons c row => rfl

theorem whole_reads {row : List Char} (digits : Digits row)
    (leading : row.head? = some '0' → row = ['0']) :
    Reads whole (Stops Char.isDigit) row row := by
  apply (digits_reads digits).ending
  split
  · rename_i c more
    cases leading rfl
  · rfl

theorem fraction_reads {row : List Char} (digits : ∀ c ∈ row, c.isDigit = true) :
    Reads fraction (Stops fun c => c.isDigit || c == '.') (fractionText row) row := by
  cases row with
  | nil =>
    apply (Reads.pure _ _).missed
    intro rest stops
    exact stops.imp fun c => by simp +contextual
  | cons c row =>
    have row := digits_reads ⟨List.cons_ne_nil c row, digits⟩
    apply (row.weaken _).found rfl
    intro rest stops
    exact stops.imp fun c => by simp +contextual

theorem sign_reads {negative : Bool} {text : List Char} (signed : SignText negative text) :
    Reads sign (Stops fun c => c == '-' || c == '+') text negative := by
  cases signed with
  | minus => exact (Reads.pure _ _).found rfl
  | plus =>
    apply Reads.missed
    · intro rest _
      rfl
    · intro rest _
      exact stops_cons rfl
  | none =>
    apply Reads.missed
    · intro rest stops
      have plus : Stops (· == '+') rest := stops.imp fun c => by simp +contextual
      change EStateM.bind (skip? (· == '+')) _ rest = _
      simp only [EStateM.bind, skip?_of_stops plus]
      rfl
    · intro rest stops
      exact stops.imp fun c => by simp +contextual

theorem stops_of_digits {row rest : List Char} {kind : Char → Bool} (digits : Digits row)
    (other : ∀ c, kind c = true → c.isDigit = false) : Stops kind (row ++ rest) := by
  rcases digits with ⟨some, each⟩
  cases row with
  | nil => exact absurd rfl some
  | cons c row =>
    apply stops_cons
    rw [← Bool.not_eq_true]
    intro fits
    have digit := each c (.head _)
    rw [other c fits] at digit
    cases digit

theorem exponent_reads {exponent? : Option Exponent} {text : List Char}
    (written : ExponentText exponent? text) :
    Reads exponent (Stops numberChar) text exponent? := by
  cases written with
  | none =>
    apply (Reads.pure _ _).missed
    intro rest stops
    exact stops.imp fun c => by simp +contextual [numberChar, or_imp]
  | some letter signed digits =>
    have power := (digits_reads digits).weaken fun rest (stops : Stops numberChar rest) =>
      stops.imp fun c => by simp +contextual [numberChar]
    apply Reads.found
    · apply (sign_reads signed).bind
      · apply power.ending
        rfl
      · intro rest _
        apply stops_of_digits digits
        intro c sign
        simp only [Bool.or_eq_true, beq_iff_eq] at sign
        rcases sign with rfl | rfl <;> rfl
    · rcases letter with rfl | rfl <;> rfl

theorem minus_reads (negative : Bool) :
    Reads (skip? (· == '-')) (Stops (· == '-')) (if negative then ['-'] else []) negative := by
  intro rest stops
  cases negative with
  | false => exact skip?_of_stops stops
  | true => exact skip?_of_fits rfl rest

theorem stops_exponent {exponent? : Option Exponent} {text rest : List Char}
    (written : ExponentText exponent? text) (stops : Stops numberChar rest) :
    Stops (fun c => c.isDigit || c == '.') (text ++ rest) := by
  cases written with
  | none => exact stops.imp fun c => by simp +contextual [numberChar]
  | some letter signed digits =>
    apply stops_cons
    rcases letter with rfl | rfl <;> rfl

theorem stops_fraction (row : List Char) {rest : List Char}
    (stops : Stops (fun c => c.isDigit || c == '.') rest) :
    Stops Char.isDigit (fractionText row ++ rest) := by
  cases row with
  | nil => exact stops.imp fun c => by simp +contextual
  | cons c row => exact stops_cons rfl

/-- A number in range is read up to something that it cannot go on with. -/
theorem number_reads {literal : Number} {text : List Char} (written : NumberText literal text)
    (ranged : literal.inRange = true) : Reads number (Stops numberChar) text literal := by
  cases written with
  | intro whole leading fraction exponent =>
    rw [wholeText, List.append_assoc]
    apply (minus_reads literal.negative).bind
    · apply (whole_reads whole leading).bind
      · apply (fraction_reads fraction).bind
        · apply (exponent_reads exponent).ending
          exact if_pos ranged
        · intro rest stops
          exact stops_exponent exponent stops
      · intro rest stops
        rw [List.append_assoc]
        exact stops_fraction _ (stops_exponent exponent stops)
    · intro rest _
      rw [List.append_assoc]
      apply stops_of_digits whole
      intro c sign
      rw [beq_iff_eq.mp sign]
      rfl

end Numbers

section Scalars

theorem keyword_reads (text : List Char) (value : Scalar) :
    Reads (keyword text value) Anything text value :=
  (expect_reads text).ending rfl

theorem scalar_number {c : Char} (more : List Char) (starts : c = '-' ∨ c.isDigit = true) :
    scalar (c :: more) = (Scalar.number <$> number : Scanner Scalar) (c :: more) := by
  have other : c ≠ '"' ∧ c ≠ 't' ∧ c ≠ 'f' ∧ c ≠ 'n' := by
    refine ⟨?_, ?_, ?_, ?_⟩
    all_goals
      rintro rfl
      revert starts
      decide
  have starts : (c = '-' || c.isDigit) = true := by
    simpa using starts
  simp only [scalar, other, starts, if_true, if_false]

theorem starts_number {literal : Number} {text : List Char} (written : NumberText literal text) :
    ∃ c more, text = c :: more ∧ (c = '-' ∨ c.isDigit = true) := by
  cases written with
  | intro whole leading fraction exponent =>
    unfold wholeText
    rcases whole with ⟨some, digits⟩
    cases literal.negative with
    | true => exact ⟨'-', _, rfl, .inl rfl⟩
    | false =>
      generalize literal.whole = row at some digits
      cases row with
      | nil => exact absurd rfl some
      | cons c row => exact ⟨c, _, rfl, .inr (digits c (.head _))⟩

theorem scalar_reads {value : Scalar} {text : List Char}
    (written : ScalarText (fun number => number.inRange = true) value text) :
    Reads scalar (Stops numberChar) text value := by
  intro rest stops
  cases written with
  | null => exact keyword_reads ['u', 'l', 'l'] .null rest trivial
  | true => exact keyword_reads ['r', 'u', 'e'] (.bool true) rest trivial
  | false => exact keyword_reads ['a', 'l', 's', 'e'] (.bool false) rest trivial
  | number ranged written =>
    rcases starts_number written with ⟨c, more, rfl, starts⟩
    rw [List.cons_append, scalar_number _ starts]
    exact (number_reads written ranged).map Scalar.number rest stops
  | string written =>
    have literal := (string_reads written "").map Scalar.string rest trivial
    rw [String.empty_append, String.ofList_toList] at literal
    exact literal

end Scalars

end Scanner

end SyscallStream.Json
