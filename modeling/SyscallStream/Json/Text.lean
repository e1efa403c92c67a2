import SyscallStream.Json

/-!
JSON values as text. A value is a row of tokens; the compact layout writes them without blanks, the
pretty layout puts every item on a line of its own, two blanks further in for every open container.
-/

namespace SyscallStream.Json

def escapeChar (c : Char) : String :=
  if c = '"' then "\\\""
  else if c = '\\' then "\\\\"
  else if c = '\x08' then "\\b"
  else if c = '\x0c' then "\\f"
  else if c = '\n' then "\\n"
  else if c = '\r' then "\\r"
  else if c = '\t' then "\\t"
  else if c.toNat < 0x20 then
    "\\u00" ++ String.ofList [Nat.digitChar (c.toNat / 16), Nat.digitChar (c.toNat % 16)]
  else String.singleton c

def quote (s : String) : String := "\"" ++ String.join (s.toList.map escapeChar) ++ "\""

def Exponent.text (exponent : Exponent) : String :=
  (if exponent.negative then "e-" else "e") ++ String.ofList exponent.digits

def Number.text (number : Number) : String :=
  (if number.negative then "-" else "") ++ String.ofList number.whole ++
    (if number.fraction.isEmpty then "" else "." ++ String.ofList number.fraction) ++
    (match number.exponent? with
      | none => ""
      | some exponent => exponent.text)

def Scalar.text : Scalar → String
  | .null => "null"
  | .bool true => "true"
  | .bool false => "false"
  | .number literal => literal.text
  | .string s => quote s

def Token.text : Token → String
  | .openArray => "["
  | .closeArray => "]"
  | .openObject => "\x7b"
  | .closeObject => "\x7d"
  | .comma => ","
  | .colon => ":"
  | .scalar value => value.text

def tokens : Json → List Token
  | .scalar value => [.scalar value]
  | .array items => .openArray :: ([.comma].intercalate (items.map tokens) ++ [.closeArray])
  | .object members =>
    .openObject ::
      ([.comma].intercalate
        (members.map fun member => .scalar (.string member.1) :: .colon :: tokens member.2) ++
        [.closeObject])
decreasing_by
  · rename_i inside
    have := List.sizeOf_lt_of_mem inside
    simp
    omega
  · rename_i inside
    have := List.sizeOf_lt_of_mem inside
    rcases member with ⟨key, value⟩
    simp at this ⊢
    omega

def compact (value : Json) : String := String.join (value.tokens.map Token.text)

structure Page where
  text : String := ""
  depth : Nat := 0
  /-- The last token opened a container. -/
  opened : Bool := false

namespace Page

def lineBreak (depth : Nat) : String := "\n" ++ String.ofList (List.replicate (2 * depth) ' ')

def lead (page : Page) : String := if page.opened then lineBreak page.depth else ""

def write (page : Page) (token : Token) : Page :=
  match token with
  | .openArray | .openObject =>
    { text := page.text ++ page.lead ++ token.text, depth := page.depth + 1, opened := true }
  | .closeArray | .closeObject =>
    { text := page.text ++ (if page.opened then "" else lineBreak (page.depth - 1)) ++ token.text
      depth := page.depth - 1 }
  | .comma => { page with text := page.text ++ "," ++ lineBreak page.depth, opened := false }
  | .colon => { page with text := page.text ++ ": ", opened := false }
  | .scalar value => { page with text := page.text ++ page.lead ++ value.text, opened := false }

end Page

def pretty (value : Json) : String := (value.tokens.foldl Page.write {}).text

end SyscallStream.Json
