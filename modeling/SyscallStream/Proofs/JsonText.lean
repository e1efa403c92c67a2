import SyscallStream.Json.Scan
import SyscallStream.Json.Text
import SyscallStream.Proofs.Legible

/-! What the text of a JSON value tells. The compact layout loses nothing, as long as numbers are
whole, and the pretty layout only adds blanks outside of string literals. -/

namespace SyscallStream.Json

inductive Escaped (c : Char) : List Char → Prop
  | letter (letter : Char) (reads : ∀ rest, Scanner.escape (letter :: rest) = .ok c rest) :
      Escaped c ['\\', letter]
  | unit (control : c.toNat < 0x20) :
      Escaped c ['\\', 'u', '0', '0', Nat.digitChar (c.toNat / 16), Nat.digitChar (c.toNat % 16)]
  | itself (quote : c ≠ '"') (backslash : c ≠ '\\') (printable : ¬ c.toNat < 0x20) :
      Escaped c [c]

theorem escapeChar_escaped (c : Char) : Escaped c (escapeChar c).toList := by
  by_cases named : c ∈ ['"', '\\', '\x08', '\x0c', '\n', '\r', '\t']
  · simp only [List.mem_cons, List.not_mem_nil, or_false] at named
    rcases named with rfl | rfl | rfl | rfl | rfl | rfl | rfl
    all_goals exact .letter _ fun _ => rfl
  · simp only [List.mem_cons, List.not_mem_nil, or_false, not_or] at named
    obtain ⟨quote, backslash, backspace, formFeed, lineFeed, carriage, tab⟩ := named
    by_cases control : c.toNat < 0x20
    · simp only [escapeChar, if_neg quote, if_neg backslash, if_neg backspace, if_neg formFeed,
        if_neg lineFeed, if_neg carriage, if_neg tab, if_pos control, String.toList_append,
        String.toList_ofList]
      exact .unit control
    · simp only [escapeChar, if_neg quote, if_neg backslash, if_neg backspace, if_neg formFeed,
        if_neg lineFeed, if_neg carriage, if_neg tab, if_neg control, String.toList_singleton]
      exact .itself quote backslash control

def escaped (s : String) : List Char := s.toList.flatMap fun c => (escapeChar c).toList

theorem toList_quote (s : String) : (quote s).toList = '"' :: (escaped s ++ ['"']) := by
  simp [quote, escaped, List.flatMap_def, Function.comp_def]

namespace Scanner

theorem string_backslash {c : Char} {more left : List Char} (text : String)
    (ran : escape more = .ok c left) : string text ('\\' :: more) = string (text.push c) left := by
  rw [string.eq_def]
  simp only
  split
  · rename_i fails
    rw [ran] at fails
    cases fails
  · rename_i reads
    rw [ran] at reads
    cases reads
    rfl

theorem unicodeEscape_of_digits {c : Char} (rest : List Char) (control : c.toNat < 0x20) :
    unicodeEscape ('0' :: '0' :: Nat.digitChar (c.toNat / 16) :: Nat.digitChar (c.toNat % 16) ::
      rest) = .ok c rest := by
  have unit : hexUnit ('0' :: '0' :: Nat.digitChar (c.toNat / 16) ::
      Nat.digitChar (c.toNat % 16) :: rest) = .ok c.toNat rest := by
    simp only [hexUnit, hexDigit?_digitChar (c.toNat / 16) (by omega),
      hexDigit?_digitChar (c.toNat % 16) (by omega), show hexDigit? '0' = some 0 from rfl]
    congr 1
    omega
  have low : isLowSurrogate c.toNat = false := by
    simp only [isLowSurrogate, decide_eq_false_iff_not]
    omega
  have high : isHighSurrogate c.toNat = false := by
    simp only [isHighSurrogate, decide_eq_false_iff_not]
    omega
  change EStateM.bind _ _ _ = _
  simp only [EStateM.bind, unit, low, high, Char.ofNat_toNat]
  rfl

theorem string_itself {c : Char} (text : String) (rest : List Char) (quote : c ≠ '"')
    (backslash : c ≠ '\\') (printable : ¬ c.toNat < 0x20) :
    string text ([c] ++ rest) = string (text.push c) rest := by
  rw [List.singleton_append, string.eq_def]
  split
  · rename_i none
    cases none
  · rename_i other
    exact absurd (List.cons.inj other).1 quote
  · rename_i other
    exact absurd (List.cons.inj other).1 backslash
  · rename_i other
    cases other
    exact if_neg printable

theorem string_escapeChar (text : String) (c : Char) (rest : List Char) :
    string text ((escapeChar c).toList ++ rest) = string (text.push c) rest := by
  have form := escapeChar_escaped c
  generalize (escapeChar c).toList = written at form
  cases form with
  | letter letter reads => exact string_backslash text (reads rest)
  | unit control => exact string_backslash text (unicodeEscape_of_digits rest control)
  | itself quote backslash printable => exact string_itself text rest quote backslash printable

theorem string_escaped (text s : String) (rest : List Char) :
    string text (escaped s ++ '"' :: rest) = .ok (text ++ s) rest := by
  obtain ⟨cs, rfl⟩ : ∃ cs, s = String.ofList cs := ⟨s.toList, String.ofList_toList.symm⟩
  unfold escaped
  rw [String.toList_ofList]
  induction cs generalizing text with
  | nil =>
    rw [List.flatMap_nil, List.nil_append, string.eq_def]
    simp
  | cons c cs ih =>
    rw [List.flatMap_cons, List.append_assoc, string_escapeChar, ih]
    congr 1
    apply String.toList_inj.mp
    simp

end Scanner

theorem quote_tells (s t : String) : Tells Anything (quote s).toList (quote t).toList (s = t) := by
  intro left right _ _ same
  simp only [toList_quote, List.cons_append, List.append_assoc, List.nil_append] at same
  have reads := congrArg (Scanner.string "") (List.cons.inj same).2
  rw [Scanner.string_escaped, Scanner.string_escaped] at reads
  obtain ⟨literals, rest⟩ := EStateM.Result.ok.inj reads
  simpa using ⟨literals, rest⟩

inductive Scalar.Plain : Scalar → Prop
  | bool (b : Bool) : Plain (.bool b)
  | nat (n : Nat) : Plain (.number (.ofNat n))
  | string (s : String) : Plain (.string s)

inductive Plain : Json → Prop
  | scalar {value : Scalar} (plain : value.Plain) : Plain (.scalar value)
  | array {items : List Json} (each : ∀ item ∈ items, Plain item) : Plain (.array items)
  | object {members : List (String × Json)} (each : ∀ member ∈ members, Plain member.2) :
      Plain (.object members)

section Compact

def joined (tokens : List Token) : List Char := tokens.flatMap fun token => token.text.toList

theorem toList_compact (value : Json) : value.compact.toList = joined value.tokens := by
  simp [compact, joined, List.flatMap_def, Function.comp_def]

theorem joined_intercalate {α : Type} (text : α → List Token) (xs : List α) :
    joined ([.comma].intercalate (xs.map text)) =
      [','].intercalate (xs.map fun x => joined (text x)) := by
  cases xs with
  | nil => rfl
  | cons x xs =>
    rw [intercalate_map_cons, intercalate_map_cons]
    simp [joined, List.flatMap_assoc, Token.text]

theorem toList_compact_scalar (value : Scalar) :
    (compact (.scalar value)).toList = value.text.toList := by
  simp [toList_compact, joined, tokens, Token.text]

theorem toList_compact_array (items : List Json) :
    (compact (.array items)).toList =
      '[' :: ([','].intercalate (items.map fun item => item.compact.toList) ++ [']']) := by
  have row := joined_intercalate tokens items
  simp only [← toList_compact] at row
  rw [toList_compact, tokens, ← row]
  simp [joined, Token.text]

def memberText (member : String × Json) : List Char :=
  (quote member.1).toList ++ ':' :: member.2.compact.toList

theorem toList_compact_object (members : List (String × Json)) :
    (compact (.object members)).toList =
      '\x7b' :: ([','].intercalate (members.map memberText) ++ ['\x7d']) := by
  have row := joined_intercalate
    (fun member => .scalar (.string member.1) :: .colon :: tokens member.2) members
  have member : (fun member : String × Json =>
      joined (.scalar (.string member.1) :: .colon :: tokens member.2)) = memberText := by
    funext member
    simp [memberText, toList_compact, joined, Token.text, Scalar.text]
  rw [member] at row
  rw [toList_compact, tokens, ← row]
  simp [joined, Token.text]

theorem toList_text_nat (n : Nat) :
    (Scalar.number (.ofNat n)).text.toList = Nat.toDigits 10 n := by
  simp [Scalar.text, Number.text, Number.ofNat]

theorem isWord_text_bool (b : Bool) : IsWord (Scalar.bool b).text.toList := by
  cases b <;> decide

theorem isWord_text_nat (n : Nat) : IsWord (Scalar.number (.ofNat n)).text.toList := by
  rw [toList_text_nat]
  exact isWord_toDigits (by decide) (by decide) n

theorem text_bool_ne_text_nat (b : Bool) (n : Nat) :
    (Scalar.bool b).text.toList ≠ (Scalar.number (.ofNat n)).text.toList := by
  intro same
  have member : 'e' ∈ (Scalar.bool b).text.toList := by cases b <;> decide
  rw [same, toList_text_nat] at member
  exact absurd (Nat.isDigit_of_mem_toDigits (by decide) (by decide) member) (by decide)

inductive Shape where
  | word
  | string
  | array
  | object
  deriving DecidableEq

def shape : Json → Shape
  | .scalar (.string _) => .string
  | .scalar _ => .word
  | .array _ => .array
  | .object _ => .object

def shape? (c : Char) : Option Shape :=
  if isWordChar c then some .word
  else if c = '"' then some .string
  else if c = '[' then some .array
  else if c = '\x7b' then some .object
  else none

theorem Plain.leads {value : Json} (plain : Plain value) :
    ∃ c rest, value.compact.toList = c :: rest ∧ shape? c = some value.shape := by
  cases plain with
  | scalar plain =>
    simp only [toList_compact_scalar]
    cases plain with
    | bool b =>
      cases b
      · exact ⟨'f', _, rfl, by decide⟩
      · exact ⟨'t', _, rfl, by decide⟩
    | nat n =>
      rw [toList_text_nat]
      obtain ⟨digit, rest, row, word⟩ := @toDigits_cons 10 (by decide) (by decide) n
      exact ⟨digit, rest, row, if_pos word⟩
    | string s => exact ⟨'"', _, toList_quote s, rfl⟩
  | array => exact ⟨'[', _, toList_compact_array _, rfl⟩
  | object => exact ⟨'\x7b', _, toList_compact_object _, rfl⟩

theorem Plain.append_ne {value : Json} {c : Char} (plain : Plain value)
    (other : shape? c ≠ some value.shape) (s t : List Char) :
    value.compact.toList ++ s ≠ c :: t := by
  obtain ⟨first, rest, text, leads⟩ := plain.leads
  intro same
  rw [text] at same
  exact other ((List.cons.inj same).1 ▸ leads)

theorem Plain.tells_apart {value other : Json} {fact : Prop} (left : Plain value)
    (right : Plain other) (apart : value.shape ≠ other.shape) :
    Tells EndsWord value.compact.toList other.compact.toList fact := by
  intro s t _ _ same
  obtain ⟨first, rest, text, leads⟩ := left.leads
  rw [text] at same
  refine absurd same.symm (right.append_ne ?_ t _)
  rw [leads]
  exact fun shapes => apart (Option.some.inj shapes)

theorem Scalar.Plain.tells {value other : Scalar} (left : value.Plain) (right : other.Plain) :
    Tells EndsWord (compact (.scalar value)).toList (compact (.scalar other)).toList
      (value = other) := by
  have apart : shape (.scalar value) ≠ shape (.scalar other) → Tells EndsWord _ _ (value = other) :=
    (Json.Plain.scalar left).tells_apart (.scalar right)
  simp only [toList_compact_scalar] at apart ⊢
  cases left with
  | bool b =>
    cases right with
    | bool c =>
      refine ((isWord_text_bool b).tells (isWord_text_bool c)).imp fun same => ?_
      revert same
      cases b <;> cases c <;> decide
    | nat n =>
      exact ((isWord_text_bool b).tells (isWord_text_nat n)).imp fun same =>
        absurd same (text_bool_ne_text_nat b n)
    | string => exact apart nofun
  | nat m =>
    cases right with
    | bool c =>
      exact ((isWord_text_nat m).tells (isWord_text_bool c)).imp fun same =>
        absurd same.symm (text_bool_ne_text_nat c m)
    | nat n =>
      refine ((isWord_text_nat m).tells (isWord_text_nat n)).imp fun same => ?_
      rw [toList_text_nat, toList_text_nat] at same
      rw [toDigits_inj (by decide) (by decide) same]
    | string => exact apart nofun
  | string s =>
    cases right with
    | bool => exact apart nofun
    | nat => exact apart nofun
    | string t =>
      intro u v _ _ same
      obtain ⟨strings, rest⟩ := quote_tells s t trivial trivial same
      exact ⟨congrArg Scalar.string strings, rest⟩

theorem memberText_tells {member other : String × Json}
    (tells : Tells EndsWord member.2.compact.toList other.2.compact.toList (member.2 = other.2)) :
    Tells EndsWord (memberText member) (memberText other) (member = other) := by
  intro s t endsLeft endsRight same
  unfold memberText at same
  rw [List.append_assoc, List.append_assoc] at same
  obtain ⟨keys, same⟩ := quote_tells _ _ trivial trivial same
  obtain ⟨values, rest⟩ := tells endsLeft endsRight (List.cons.inj same).2
  exact ⟨Prod.ext keys values, rest⟩

theorem items_tells {α : Type} {text : α → List Char} {xs ys : List α} {close : Char}
    (each : ∀ x ∈ xs, ∀ y ∈ ys, Tells EndsWord (text x) (text y) (x = y))
    (bracket : isWordChar close = false) (other : ',' ≠ close)
    (opened : ∀ x ∈ xs ++ ys, ∀ r s, text x ++ r ≠ close :: s) :
    Tells Anything ([','].intercalate (xs.map text) ++ [close])
      ([','].intercalate (ys.map text) ++ [close]) (xs = ys) := by
  have elements : ∀ x ∈ xs, ∀ y ∈ ys, Tells EndsWord (text x) (text y) (id x = id y) := each
  have rows : Tells Anything ([','].intercalate (xs.map text) ++ [close])
      ([','].intercalate (ys.map text) ++ [close]) (xs.map id = ys.map id) :=
    .separated elements (fun _ => stops_cons rfl) (fun _ => stops_cons bracket)
      (fun _ _ same => other (List.cons.inj same).1) opened
  rwa [List.map_id, List.map_id] at rows

/-- The compact layout shows a value and where it ends. -/
theorem Plain.tells {value other : Json} (left : Plain value) (right : Plain other) :
    Tells EndsWord value.compact.toList other.compact.toList (value = other) := by
  induction left generalizing other with
  | scalar left =>
    cases right with
    | scalar right => exact (left.tells right).imp (congrArg Json.scalar)
    | array each =>
      exact (Plain.scalar left).tells_apart (.array each) (by cases left <;> nofun)
    | object each =>
      exact (Plain.scalar left).tells_apart (.object each) (by cases left <;> nofun)
  | @array items each ih =>
    cases right with
    | scalar right =>
      exact (Plain.array each).tells_apart (.scalar right) (by cases right <;> nofun)
    | @array others each' =>
      intro s t _ _ same
      rw [toList_compact_array, toList_compact_array] at same
      have opened : ∀ x ∈ items ++ others, ∀ r s, x.compact.toList ++ r ≠ ']' :: s := by
        intro x member
        have plain := (List.mem_append.mp member).elim (each x) (each' x)
        exact plain.append_ne nofun
      have rows := items_tells (fun x member y member' => ih x member (each' y member')) rfl
        (by decide) opened
      exact rows.imp (congrArg Json.array) trivial trivial (List.cons.inj same).2
    | object each' => exact (Plain.array each).tells_apart (.object each') nofun
  | @object members each ih =>
    cases right with
    | scalar right =>
      exact (Plain.object each).tells_apart (.scalar right) (by cases right <;> nofun)
    | array each' => exact (Plain.object each).tells_apart (.array each') nofun
    | @object others each' =>
      intro s t _ _ same
      rw [toList_compact_object, toList_compact_object] at same
      have opened : ∀ x ∈ members ++ others, ∀ r s, memberText x ++ r ≠ '\x7d' :: s := by
        intro x _ r s same
        simp [memberText, toList_quote] at same
      have rows := items_tells
        (fun x member y member' => memberText_tells (ih x member (each' y member'))) rfl
        (by decide) opened
      exact rows.imp (congrArg Json.object) trivial trivial (List.cons.inj same).2

theorem Plain.compact_inj {value other : Json} (left : Plain value) (right : Plain other) :
    value.compact = other.compact ↔ value = other := by
  refine ⟨fun same => ?_, fun same => by rw [same]⟩
  exact (left.tells right).whole (stops_nil _) (congrArg String.toList same)

end Compact

section Blanks

/-- Where a reader of a text is: outside of any string literal, inside of one, or there behind a
backslash. -/
inductive Zone where
  | outside
  | inside
  | backslash
  deriving DecidableEq, Repr

def Zone.next : Zone → Char → Zone
  | .outside, c => if c = '"' then .inside else .outside
  | .inside, c => if c = '"' then .outside else if c = '\\' then .backslash else .inside
  | .backslash, _ => .inside

def dropBlanks (zone : Zone) : List Char → List Char
  | [] => []
  | c :: rest =>
    if zone = .outside ∧ isBlank c then dropBlanks zone rest
    else c :: dropBlanks (zone.next c) rest

def withoutBlanks (text : String) : String := String.ofList (dropBlanks .outside text.toList)

def Kept (zone : Zone) (text : List Char) (after : Zone) : Prop :=
  ∀ rest, dropBlanks zone (text ++ rest) = text ++ dropBlanks after rest

theorem kept_nil (zone : Zone) : Kept zone [] zone := fun _ => rfl

theorem Kept.cons {zone after : Zone} {c : Char} {text : List Char}
    (solid : zone = .outside → isBlank c = false) (kept : Kept (zone.next c) text after) :
    Kept zone (c :: text) after := by
  intro rest
  have stays : ¬ (zone = .outside ∧ isBlank c = true) := by
    rintro ⟨outside, blank⟩
    rw [solid outside] at blank
    cases blank
  rw [List.cons_append, dropBlanks, if_neg stays, kept rest, List.cons_append]

theorem Kept.append {zone middle after : Zone} {u v : List Char} (first : Kept zone u middle)
    (second : Kept middle v after) : Kept zone (u ++ v) after := by
  intro rest
  rw [List.append_assoc, first, second, List.append_assoc]

theorem solid_of_isWordChar {c : Char} (word : isWordChar c = true) :
    isBlank c = false ∧ c ≠ '"' ∧ c ≠ '\\' := by
  refine ⟨?_, ?_, ?_⟩
  · by_contra blank
    simp only [isBlank, Bool.not_eq_false, Bool.or_eq_true, beq_iff_eq] at blank
    rcases blank with ((rfl | rfl) | rfl) | rfl
    all_goals exact absurd word (by decide)
  · rintro rfl
    exact absurd word (by decide)
  · rintro rfl
    exact absurd word (by decide)

theorem kept_word {zone : Zone} {text : List Char} (literal : zone ≠ .backslash)
    (word : IsWord text) : Kept zone text zone := by
  induction text with
  | nil => exact kept_nil zone
  | cons c text ih =>
    obtain ⟨solid, quote, backslash⟩ := solid_of_isWordChar (word c (.head _))
    refine .cons (fun _ => solid) ?_
    have stays : zone.next c = zone := by
      cases zone with
      | outside => exact if_neg quote
      | inside => simp only [Zone.next, if_neg quote, if_neg backslash]
      | backslash => exact absurd rfl literal
    rw [stays]
    exact ih fun d member => word d (.tail _ member)

theorem kept_escapeChar (c : Char) : Kept .inside (escapeChar c).toList .inside := by
  have form := escapeChar_escaped c
  generalize (escapeChar c).toList = written at form
  cases form with
  | letter letter reads => exact .cons nofun (.cons nofun (kept_nil _))
  | unit control =>
    refine .cons nofun (.cons nofun (kept_word nofun ?_))
    simp only [IsWord, List.forall_mem_cons]
    exact ⟨rfl, rfl, isWordChar_digitChar _ (by omega), isWordChar_digitChar _ (by omega), nofun⟩
  | itself quote backslash printable =>
    refine .cons nofun ?_
    simp only [Zone.next, if_neg quote, if_neg backslash]
    exact kept_nil _

theorem kept_quote (s : String) : Kept .outside (quote s).toList .outside := by
  have literal (cs : List Char) :
      Kept .inside (cs.flatMap fun c => (escapeChar c).toList) .inside := by
    induction cs with
    | nil => exact kept_nil _
    | cons c cs ih => exact (kept_escapeChar c).append ih
  rw [toList_quote]
  exact .cons (fun _ => rfl) ((literal s.toList).append (.cons nofun (kept_nil _)))

theorem Scalar.Plain.kept {value : Scalar} (plain : value.Plain) :
    Kept .outside value.text.toList .outside := by
  cases plain with
  | bool b => exact kept_word nofun (isWord_text_bool b)
  | nat n => exact kept_word nofun (isWord_text_nat n)
  | string s => exact kept_quote s

theorem forall_mem_intercalate {τ α : Type} {P : τ → Prop} {sep : List τ} {text : α → List τ}
    {xs : List α} (between : ∀ token ∈ sep, P token) (each : ∀ x ∈ xs, ∀ token ∈ text x, P token) :
    ∀ token ∈ sep.intercalate (xs.map text), P token := by
  cases xs with
  | nil => simp
  | cons x xs =>
    rw [intercalate_map_cons]
    intro token member
    rcases List.mem_append.mp member with first | later
    · exact each x (.head _) token first
    · obtain ⟨y, inside, member⟩ := List.mem_flatMap.mp later
      exact (List.mem_append.mp member).elim (between token) (each y (.tail _ inside) token)

theorem Plain.kept {value : Json} (plain : Plain value) :
    ∀ token ∈ value.tokens, Kept .outside token.text.toList .outside := by
  have mark {token : Token} {c : Char} (text : token.text.toList = [c]) (solid : isBlank c = false)
      (quote : c ≠ '"') : Kept .outside token.text.toList .outside := by
    rw [text]
    refine .cons (fun _ => solid) ?_
    rw [Zone.next, if_neg quote]
    exact kept_nil _
  have comma : ∀ token ∈ [Token.comma], Kept .outside token.text.toList .outside :=
    List.forall_mem_singleton.mpr (mark rfl rfl (by decide))
  induction plain with
  | scalar plain =>
    rw [tokens]
    exact List.forall_mem_singleton.mpr plain.kept
  | array each ih =>
    rw [tokens, List.forall_mem_cons, List.forall_mem_append, List.forall_mem_singleton]
    exact ⟨mark rfl rfl (by decide), forall_mem_intercalate comma ih, mark rfl rfl (by decide)⟩
  | object each ih =>
    rw [tokens, List.forall_mem_cons, List.forall_mem_append, List.forall_mem_singleton]
    refine ⟨mark rfl rfl (by decide), forall_mem_intercalate comma fun member inside => ?_,
      mark rfl rfl (by decide)⟩
    rw [List.forall_mem_cons, List.forall_mem_cons]
    exact ⟨kept_quote member.1, mark rfl rfl (by decide), ih member inside⟩

def Blank (text : List Char) : Prop := ∀ c ∈ text, isBlank c = true

theorem blank_nil : Blank [] := nofun

theorem Blank.dropBlanks_append {blanks : List Char} (blank : Blank blanks) (rest : List Char) :
    dropBlanks .outside (blanks ++ rest) = dropBlanks .outside rest := by
  induction blanks with
  | nil => rfl
  | cons c blanks ih =>
    rw [List.cons_append, dropBlanks, if_pos ⟨rfl, blank c (.head _)⟩]
    exact ih fun d member => blank d (.tail _ member)

namespace Page

theorem blank_lineBreak (depth : Nat) : Blank (lineBreak depth).toList := by
  have indented : (lineBreak depth).toList = '\n' :: List.replicate (2 * depth) ' ' := by
    simp [lineBreak]
  rw [indented]
  refine List.forall_mem_cons.mpr ⟨rfl, fun c member => ?_⟩
  rw [List.eq_of_mem_replicate member]
  rfl

theorem blank_lead (page : Page) : Blank page.lead.toList := by
  unfold lead
  split
  · exact blank_lineBreak page.depth
  · exact blank_nil

theorem write_text (page : Page) (token : Token) :
    ∃ before after : List Char, Blank before ∧ Blank after ∧
      (page.write token).text.toList =
        page.text.toList ++ (before ++ (token.text.toList ++ after)) := by
  cases token with
  | openArray | openObject | scalar =>
    refine ⟨page.lead.toList, [], blank_lead page, blank_nil, ?_⟩
    simp [write, Token.text]
  | closeArray | closeObject =>
    refine ⟨(if page.opened then "" else lineBreak (page.depth - 1)).toList, [], ?_, blank_nil, ?_⟩
    · split
      · exact blank_nil
      · exact blank_lineBreak _
    · simp only [write, String.toList_append, List.append_assoc, List.append_nil]
  | comma =>
    refine ⟨[], (lineBreak page.depth).toList, blank_nil, blank_lineBreak _, ?_⟩
    simp [write, Token.text]
  | colon =>
    refine ⟨[], [' '], blank_nil, by simp [Blank, isBlank], ?_⟩
    simp [write, Token.text]

def Shows (page : Page) (text : List Char) : Prop :=
  ∀ rest, dropBlanks .outside (page.text.toList ++ rest) = text ++ dropBlanks .outside rest

theorem Shows.write {page : Page} {text : List Char} {token : Token} (shows : page.Shows text)
    (kept : Kept .outside token.text.toList .outside) :
    (page.write token).Shows (text ++ token.text.toList) := by
  obtain ⟨before, after, blankBefore, blankAfter, written⟩ := page.write_text token
  intro rest
  rw [written, List.append_assoc, List.append_assoc, List.append_assoc, shows,
    blankBefore.dropBlanks_append, kept, blankAfter.dropBlanks_append, List.append_assoc]

theorem Shows.foldl {tokens : List Token} {page : Page} {text : List Char}
    (shows : page.Shows text)
    (kept : ∀ token ∈ tokens, Kept .outside token.text.toList .outside) :
    (tokens.foldl Page.write page).Shows (text ++ joined tokens) := by
  induction tokens generalizing page text with
  | nil =>
    rw [joined, List.flatMap_nil, List.append_nil]
    exact shows
  | cons token tokens ih =>
    have row := ih (shows.write (kept token (.head _))) fun other member =>
      kept other (.tail _ member)
    rw [List.append_assoc] at row
    exact row

end Page

/-- The pretty layout only adds blanks, and only outside of string literals. -/
theorem Plain.withoutBlanks_pretty {value : Json} (plain : Plain value) (blanks : String)
    (blank : Blank blanks.toList) : withoutBlanks (value.pretty ++ blanks) = value.compact := by
  have empty : Page.Shows {} [] := fun _ => rfl
  have shows := (empty.foldl plain.kept) blanks.toList
  have none := blank.dropBlanks_append []
  rw [List.append_nil] at none
  apply String.toList_inj.mp
  rw [withoutBlanks, String.toList_ofList, String.toList_append, toList_compact]
  change dropBlanks .outside ((value.tokens.foldl Page.write {}).text.toList ++ _) = _
  rw [shows, none]
  simp [dropBlanks]

example : withoutBlanks "[\n  1,\n  \" a\\\" \"\n]\n" = "[1,\" a\\\" \"]" := by decide

end Blanks

end SyscallStream.Json
