import SyscallStream.Catalog.Text
import SyscallStream.Proofs.DoubleRange
import SyscallStream.Proofs.JsonReading

/-! Tables from JSON, however it is written. A list of descriptions has many texts: members come in any
order, some may be left out, others may be added, and every value may be spelled and laid out in
several ways. All of them give the table of the descriptions. -/

namespace SyscallStream

namespace Description

inductive CallNameMember : Option String → List (String × Json) → Prop
  | absent : CallNameMember none []
  | null : CallNameMember none [("call_name", .scalar .null)]
  | given (name : String) : CallNameMember (some name) [("call_name", .string name)]

inductive NrMember : UInt64 → List (String × Json) → Prop
  | absent : NrMember 0 []
  | given (nr : UInt64) : NrMember nr [("nr", .word nr)]

def Unknown (members : List (String × Json)) : Prop :=
  ∀ member ∈ members, member.1 ∉ ["name", "call_name", "nr"]

inductive Written : Description → Json → Prop
  | plain (name : String) : Written (.plain name) (.string name)
  | full {name : String} {callName? : Option String} {nr : UInt64}
      {members called numbered others : List (String × Json)}
      (call : CallNameMember callName? called) (number : NrMember nr numbered)
      (unknown : Unknown others)
      (order : members.Perm (("name", .string name) :: (called ++ (numbered ++ others)))) :
      Written (.full name callName? nr) (.object members)

/-- A text that is an array of such values, with numbers as wanted and at most 127 containers open at
once. -/
inductive Renders (fits : Json.Number → Prop) (descriptions : List Description) (text : String) : Prop
  | intro {items : List Json} (written : List.Forall₂ Written descriptions items)
      (within : Json.Within 127 (.array items))
      (laid : Json.Laid fits (Json.tokens (.array items)) text.toList) : Renders fits descriptions text

section Members

variable {key : String} {members listed : List (String × Json)}

theorem filter_unknown (unknown : Unknown listed) (known : key ∈ ["name", "call_name", "nr"]) :
    listed.filter (·.1 == key) = [] := by
  rw [List.filter_eq_nil_iff]
  intro member inside same
  exact unknown member inside (beq_iff_eq.mp same ▸ known)

theorem member?_of_perm {value? : Option Json} (order : members.Perm listed)
    (once : listed.filter (·.1 == key) = (value?.map fun value => (key, value)).toList) :
    Json.member? key members = some value? := by
  have found := order.filter (·.1 == key)
  rw [once] at found
  unfold Json.member?
  cases value? with
  | none => rw [List.perm_nil.mp found]
  | some value => rw [List.perm_singleton.mp found]

end Members

section Values

theorem digitsValue_toDigits (n : Nat) : Json.digitsValue (Nat.toDigits 10 n) = n := by
  have digits := @value_toDigits 10 (by decide) (by decide) n
  apply Eq.trans (List.foldl_ext _ _ 0 _) digits
  intro value c member
  have digit := Nat.isDigit_of_mem_toDigits (by decide) (by decide) member
  rw [Json.Scanner.hexDigit?, if_pos digit, Option.getD_some]

theorem word?_ofNat (nr : UInt64) : (Json.Number.ofNat nr.toNat).word? = some nr := by
  unfold Json.Number.word? Json.Number.ofNat
  simp only [digitsValue_toDigits, nr.toNat_lt, if_true, UInt64.ofNat_toNat]
  rfl

variable {members called numbered others : List (String × Json)} {name : String}
  (order : members.Perm (("name", .string name) :: (called ++ (numbered ++ others))))
  (unknown : Unknown others)
include order unknown

theorem callNameOf?_of_perm {callName? : Option String} {nr : UInt64}
    (call : CallNameMember callName? called) (number : NrMember nr numbered) :
    ∃ value?, Json.member? "call_name" members = some value? ∧
      callNameOf? value? = some callName? := by
  have found (value? : Option Json)
      (own : called = (value?.map fun value => ("call_name", value)).toList) :
      Json.member? "call_name" members = some value? := by
    apply member?_of_perm order
    subst own
    cases number <;> cases value? <;> simp [filter_unknown unknown]
  cases call with
  | absent => exact ⟨none, found none rfl, rfl⟩
  | null => exact ⟨some (.scalar .null), found _ rfl, rfl⟩
  | given name => exact ⟨some (.string name), found _ rfl, rfl⟩

theorem nrOf?_of_perm {callName? : Option String} {nr : UInt64}
    (call : CallNameMember callName? called) (number : NrMember nr numbered) :
    ∃ value?, Json.member? "nr" members = some value? ∧ nrOf? value? = some nr := by
  have found (value? : Option Json)
      (own : numbered = (value?.map fun value => ("nr", value)).toList) :
      Json.member? "nr" members = some value? := by
    apply member?_of_perm order
    subst own
    cases call <;> cases value? <;> simp [filter_unknown unknown]
  cases number with
  | absent => exact ⟨none, found none rfl, rfl⟩
  | given nr => exact ⟨some (.word nr), found _ rfl, word?_ofNat nr⟩

end Values

theorem ofJson?_of_written {description : Description} {item : Json}
    (written : Written description item) : ofJson? item = some description := by
  cases written with
  | plain name => rfl
  | @full name callName? nr members called numbered others call number unknown order =>
    have named : Json.member? "name" members = some (some (.string name)) := by
      apply member?_of_perm order
      cases call <;> cases number <;> simp [filter_unknown unknown]
    rcases callNameOf?_of_perm order unknown call number with ⟨_, foundCall, callName⟩
    rcases nrOf?_of_perm order unknown call number with ⟨_, foundNr, nr⟩
    simp only [ofJson?, named, foundCall, foundNr, callName, nr, nameOf?, Json.string,
      Option.bind_some, Option.bind_eq_bind]
    rfl

theorem map_ofJson? {descriptions : List Description} {items : List Json}
    (written : List.Forall₂ Written descriptions items) :
    items.map ofJson? = descriptions.map some := by
  induction written with
  | nil => rfl
  | cons first _ ih => rw [List.map_cons, List.map_cons, ofJson?_of_written first, ih]

end Description

namespace Json

variable {fits : Number → Prop}

structure Piece where
  blanks : List Char := []
  token : Token
  word : List Char

def Piece.Fits (fits : Number → Prop) (piece : Piece) : Prop :=
  Blank piece.blanks ∧ TokenText fits piece.token piece.word

theorem laid_pieces {pieces : List Piece} {last : List Char}
    (each : ∀ piece ∈ pieces, piece.Fits fits) (blank : Blank last) :
    Laid fits (pieces.map Piece.token)
      (pieces.flatMap (fun piece => piece.blanks ++ piece.word) ++ last) := by
  induction pieces with
  | nil => exact .nil blank
  | cons piece pieces ih =>
    rw [List.flatMap_cons, List.append_assoc, List.append_assoc]
    have first := each piece (.head _)
    exact .cons first.1 first.2 (ih fun other member => each other (.tail _ member))

def isPlain (c : Char) : Bool := c != '"' && c != '\\' && !decide (c.toNat < 0x20)

theorem charText_of_isPlain {c : Char} (plain : isPlain c = true) : CharText c [c] := by
  simp only [isPlain, Bool.and_eq_true, bne_iff_ne, Bool.not_eq_true',
    decide_eq_false_iff_not] at plain
  exact .itself plain.1.1 plain.1.2 plain.2

theorem charsText_plain {cs : List Char} (plain : cs.all isPlain = true) : CharsText cs cs := by
  induction cs with
  | nil => exact .nil
  | cons c cs ih =>
    rw [List.all_cons, Bool.and_eq_true] at plain
    exact .cons (charText_of_isPlain plain.1) (ih plain.2)

def mark (token : Token) : Piece where
  token := token
  word := token.text.toList

def plainString (s : String) : Piece where
  token := .scalar (.string s)
  word := '"' :: (s.toList ++ ['"'])

theorem fits_mark {token : Token} (bare : token.isMark = true) : (mark token).Fits fits :=
  ⟨blank_nil, .mark bare⟩

theorem fits_plainString {s : String} (plain : s.toList.all isPlain = true) :
    (plainString s).Fits fits :=
  ⟨blank_nil, .scalar (.string (charsText_plain plain))⟩

end Json

section Samples

open Json

theorem renders_pieces {fits : Number → Prop} {descriptions : List Description} {items : List Json}
    {pieces : List Piece} {last : List Char} {text : String}
    (written : List.Forall₂ Description.Written descriptions items)
    (within : Within 127 (.array items)) (found : tokens (.array items) = pieces.map Piece.token)
    (each : ∀ piece ∈ pieces, piece.Fits fits) (blank : Blank last)
    (spelled : text.toList = pieces.flatMap (fun piece => piece.blanks ++ piece.word) ++ last) :
    Description.Renders fits descriptions text := by
  have laid := laid_pieces each blank
  rw [← found, ← spelled] at laid
  exact .intro written within laid

/-- A name alone, and then a name of one character behind an unknown member, with a number that a
double does not hold. -/
def spelledDescriptions : List Description :=
  [.plain "open$dir", .full "😀" none 0xffffffffffffffff]

def spelledNumber : Number := { negative := true, whole := ['2'], exponent? := some ⟨false, ['5']⟩ }

def spelledItems : List Json :=
  [.string "open$dir",
    .object [("x", .array [.scalar (.number spelledNumber)]), ("name", .string "😀"),
      ("nr", .word 0xffffffffffffffff), ("x", .scalar .null), ("call_name", .scalar .null)]]

def spelledPieces : List Piece :=
  [{ mark .openArray with blanks := [' '] }, plainString "open$dir", mark .comma, mark .openObject,
    plainString "x", mark .colon, mark .openArray,
    { token := .scalar (.number spelledNumber), word := "-2E+5".toList }, mark .closeArray,
    mark .comma, { token := .scalar (.string "name"), word := "\"\\u006Eame\"".toList }, mark .colon,
    { token := .scalar (.string "😀"), word := "\"\\ud83d\\uDE00\"".toList }, mark .comma,
    plainString "nr", mark .colon,
    { token := .scalar (.number (.ofNat 0xffffffffffffffff))
      word := "18446744073709551615".toList }, mark .comma,
    plainString "x", mark .colon, { token := .scalar .null, word := "null".toList }, mark .comma,
    plainString "call_name", mark .colon, { token := .scalar .null, word := "null".toList },
    mark .closeObject, mark .closeArray]

def spelledText : String :=
  " [\"open$dir\",\x7b\"x\":[-2E+5],\"\\u006Eame\":\"\\ud83d\\uDE00\",\"nr\":18446744073709551615," ++
    "\"x\":null,\"call_name\":null\x7d]\n"

theorem spelledPieces_fit {fits : Number → Prop} (power : fits spelledNumber)
    (largest : fits (.ofNat 0xffffffffffffffff)) : ∀ piece ∈ spelledPieces, piece.Fits fits := by
  have powerText : NumberText spelledNumber "-2E+5".toList := by
    have exponent : ExponentText (some ⟨false, ['5']⟩) ('E' :: (['+'] ++ ['5'])) :=
      .some (.inr rfl) .plus (by decide)
    exact .intro (by decide) (by decide) (List.forall_mem_nil _) exponent
  have largestText : NumberText (.ofNat 0xffffffffffffffff) "18446744073709551615".toList :=
    .intro (by decide +kernel) (by decide +kernel) (List.forall_mem_nil _) .none
  have nameText : CharsText "name".toList "\\u006Eame".toList := by
    have unit : HexUnit 'n'.toNat ['0', '0', '6', 'E'] :=
      @HexUnit.intro 0 0 6 14 _ _ _ _ (by decide) (by decide) (by decide) (by decide)
    have rest : CharsText ['a', 'm', 'e'] ['a', 'm', 'e'] := charsText_plain rfl
    exact .cons (.unit unit) rest
  have smileText : CharsText "😀".toList "\\ud83d\\uDE00".toList := by
    have high : HexUnit (0xd800 + 0x3d) ['d', '8', '3', 'd'] :=
      @HexUnit.intro 13 8 3 13 _ _ _ _ (by decide) (by decide) (by decide) (by decide)
    have low : HexUnit (0xdc00 + 0x200) ['D', 'E', '0', '0'] :=
      @HexUnit.intro 13 14 0 0 _ _ _ _ (by decide) (by decide) (by decide) (by decide)
    exact .cons (.pair high low (by decide) (by decide) (by decide)) .nil
  simp only [spelledPieces, List.forall_mem_cons]
  exact ⟨⟨List.forall_mem_singleton.mpr rfl, .mark rfl⟩, fits_plainString rfl, fits_mark rfl,
    fits_mark rfl, fits_plainString rfl, fits_mark rfl, fits_mark rfl,
    ⟨blank_nil, .scalar (.number power powerText)⟩, fits_mark rfl, fits_mark rfl,
    ⟨blank_nil, .scalar (.string nameText)⟩, fits_mark rfl,
    ⟨blank_nil, .scalar (.string smileText)⟩, fits_mark rfl,
    fits_plainString rfl, fits_mark rfl, ⟨blank_nil, .scalar (.number largest largestText)⟩,
    fits_mark rfl, fits_plainString rfl, fits_mark rfl, ⟨blank_nil, .scalar .null⟩, fits_mark rfl,
    fits_plainString rfl, fits_mark rfl, ⟨blank_nil, .scalar .null⟩, fits_mark rfl, fits_mark rfl,
    List.forall_mem_nil _⟩

theorem renders_spelled :
    Description.Renders (fun number => number.inRange = true) spelledDescriptions spelledText := by
  have written : List.Forall₂ Description.Written spelledDescriptions spelledItems := by
    have unknown : Description.Unknown
        [("x", .array [.scalar (.number spelledNumber)]), ("x", .scalar .null)] := by
      simp [Description.Unknown]
    apply List.Forall₂.cons (.plain _)
    apply List.Forall₂.cons _ .nil
    apply Description.Written.full .null (.given _) unknown
    apply (List.Perm.swap _ _ _).trans
    apply List.Perm.cons
    apply (List.perm_append_singleton _ [_, _, _]).trans
    exact .cons _ (.swap _ _ _)
  have within : Within 127 (.array spelledItems) := by
    apply Within.array
    simp only [spelledItems, List.forall_mem_cons]
    refine ⟨.scalar _ _, .object ?_, List.forall_mem_nil _⟩
    simp only [List.forall_mem_cons]
    exact ⟨.array (List.forall_mem_singleton.mpr (.scalar _ _)), .scalar _ _, .scalar _ _,
      .scalar _ _, .scalar _ _, List.forall_mem_nil _⟩
  have found : tokens (.array spelledItems) = spelledPieces.map Piece.token := by
    simp [spelledPieces, spelledItems, tokens, mark, plainString, Json.string, Json.word, Json.nat]
  have fit : ∀ piece ∈ spelledPieces, piece.Fits (fun number => number.inRange = true) :=
    spelledPieces_fit (by decide +kernel) (by decide +kernel)
  have blank : Blank ['\n'] := List.forall_mem_singleton.mpr rfl
  exact renders_pieces written within found fit blank (by decide +kernel)

theorem renders_emptyName :
    Description.Renders (fun number => number.inRange = true) [.plain ""] "[\"\"]" := by
  have within : Within 127 (.array [.string ""]) :=
    .array (List.forall_mem_singleton.mpr (.scalar _ _))
  have found : tokens (.array [.string ""])
      = [mark .openArray, plainString "", mark .closeArray].map Piece.token := by
    simp [tokens, mark, plainString, Json.string]
  have fit : ∀ piece ∈ [mark .openArray, plainString "", mark .closeArray],
      piece.Fits (fun number => number.inRange = true) := by
    simp only [List.forall_mem_cons]
    exact ⟨fits_mark rfl, fits_plainString rfl, fits_mark rfl, List.forall_mem_nil _⟩
  exact renders_pieces (.cons (.plain _) .nil) within found fit blank_nil (by decide)

/-- A literal that is a little smaller than the largest double. -/
def nearNumber : Number where
  whole := "17976931348623157000".toList
  exponent? := some ⟨false, "289".toList⟩

def nearPieces : List Piece :=
  [mark .openArray, mark .openObject, plainString "name", mark .colon, plainString "a", mark .comma,
    plainString "x", mark .colon,
    { token := .scalar (.number nearNumber), word := "17976931348623157000e289".toList },
    mark .closeObject, mark .closeArray]

def nearText : String := "[\x7b\"name\":\"a\",\"x\":17976931348623157000e289\x7d]"

theorem renders_near {fits : Number → Prop} (near : fits nearNumber) :
    Description.Renders fits [.full "a" none 0] nearText := by
  have written : Description.Written (.full "a" none 0)
      (.object [("name", .string "a"), ("x", .scalar (.number nearNumber))]) :=
    .full .absent .absent (by simp [Description.Unknown]) (.refl _)
  have within : Within 127
      (.array [.object [("name", .string "a"), ("x", .scalar (.number nearNumber))]]) := by
    apply Within.array
    rw [List.forall_mem_singleton]
    apply Within.object
    exact List.forall_mem_cons.mpr ⟨.scalar _ _, List.forall_mem_singleton.mpr (.scalar _ _)⟩
  have found : tokens (.array [.object [("name", .string "a"), ("x", .scalar (.number nearNumber))]])
      = nearPieces.map Piece.token := by
    simp [nearPieces, tokens, mark, plainString, Json.string]
  have fit : ∀ piece ∈ nearPieces, piece.Fits fits := by
    have exponent : ExponentText (some ⟨false, "289".toList⟩) ('e' :: ([] ++ "289".toList)) :=
      .some (.inl rfl) .none (by decide)
    have nearText : NumberText nearNumber "17976931348623157000e289".toList :=
      .intro (by decide) (by decide) (List.forall_mem_nil _) exponent
    simp only [nearPieces, List.forall_mem_cons]
    exact ⟨fits_mark rfl, fits_mark rfl, fits_plainString rfl, fits_mark rfl,
      fits_plainString rfl, fits_mark rfl, fits_plainString rfl, fits_mark rfl,
      ⟨blank_nil, .scalar (.number near nearText)⟩, fits_mark rfl, fits_mark rfl,
      List.forall_mem_nil _⟩
  exact renders_pieces (.cons written .nil) within found fit blank_nil (by decide +kernel)

end Samples

/-- However descriptions are written as JSON, the text gives their table, or the error of an empty
name. Of a number it is asked that it passes for a double, which every one does that is well inside the
range of doubles. -/
theorem ofText_renders (descriptions : List Description) (text : String)
    (renders : Description.Renders (fun number => number.inRange = true) descriptions text) :
    Table.ofText text = Table.ofDescriptions descriptions ∧
      ∀ number : Json.Number, number.AtMost Json.safeDouble → number.inRange = true := by
  refine ⟨?_, fun _ => Json.Number.inRange_of_atMost⟩
  cases renders with
  | @intro items written within laid =>
    rw [Table.ofText, Json.readArray_laid (Description.map_ofJson? written) within laid]

theorem ofText_renders_spelled :
    Description.Renders (fun number => number.inRange = true) spelledDescriptions spelledText ∧
      Table.ofText spelledText =
        .ok ⟨#[⟨0, 0, "open$dir", "open"⟩, ⟨1, 0xffffffffffffffff, "😀", "😀"⟩]⟩ ∧
      Table.ofText "[\"\"]" = .error (.emptyName 0) ∧
      spelledNumber.AtMost Json.safeDouble ∧ spelledNumber.inRange = true := by
  have read := ofText_renders _ _ renders_spelled
  have empty := ofText_renders _ _ renders_emptyName
  have small : spelledNumber.AtMost Json.safeDouble := by decide +kernel
  have entries : Table.ofDescriptions spelledDescriptions =
      .ok ⟨#[⟨0, 0, "open$dir", "open"⟩, ⟨1, 0xffffffffffffffff, "😀", "😀"⟩]⟩ := rfl
  exact ⟨renders_spelled, read.1.trans entries, empty.1, small, read.2 _ small⟩

/-- Being a double's magnitude is not enough for a number: rounded factors can have a product that is
out of range. -/
theorem ofText_near_largest :
    ¬ ∀ descriptions text,
      Description.Renders (fun number => number.AtMost Json.maxDouble) descriptions text →
        Table.ofText text = Table.ofDescriptions descriptions := by
  intro same
  have near : nearNumber.AtMost Json.maxDouble := by decide +kernel
  have built := same _ _ (renders_near near)
  have refused : (Table.ofText nearText).isOk = false := by decide +kernel
  rw [built] at refused
  exact absurd refused (by decide)

end SyscallStream
