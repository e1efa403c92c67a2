import SyscallStream.Proofs.JsonFlag

/-! What a command line asks for, said of its texts: which items the arguments are made of, and
which options the items stand for. -/

namespace SyscallStream.Cli

/-- No option: a text that starts with no dash, or a dash alone. -/
def Plain (text : String) : Prop := text = "-" ∨ text.toList.head? ≠ some '-'

inductive Says : List String → List Item → Prop
  | nil : Says [] []
  | program {name : String} {rest : List String} {items : List Item} (plain : Plain name)
      (later : Says rest items) : Says (name :: rest) (.program name :: items)
  | json {rest : List String} {items : List Item} (later : Says rest items) :
      Says ("--json" :: rest) (.json :: items)
  | attached {opt : Opt} {value : String} {rest : List String} {items : List Item}
      (other : opt ≠ .json) (later : Says rest items) :
      Says ((opt.flag ++ "=" ++ value) :: rest) (.value opt value :: items)
  | separate {opt : Opt} {value : String} {rest : List String} {items : List Item}
      (other : opt ≠ .json) (plain : Plain value) (later : Says rest items) :
      Says (opt.flag :: value :: rest) (.value opt value :: items)
  | separator (names : List String) : Says ("--" :: names) (names.map .program)

def Numeral (text : String) (n : UInt64) : Prop :=
  ∃ digits : List Char, digits ≠ [] ∧ (∀ c ∈ digits, c.isDigit = true) ∧
    (text.toList = digits ∨ text.toList = '+' :: digits) ∧ Nat.ofDigitChars 10 digits 0 = n.toNat

def Item.program? : Item → Option String
  | .program name => some name
  | .json | .value .. => none

def Item.opt? : Item → Option Opt
  | .program _ => none
  | .json => some .json
  | .value opt _ => some opt

def Item.value? (opt : Opt) : Item → Option String
  | .program _ | .json => none
  | .value other text => if other = opt then some text else none

def programsIn (items : List Item) : List String := items.filterMap Item.program?

def optsIn (items : List Item) : List Opt := items.filterMap Item.opt?

def valueIn? (opt : Opt) (items : List Item) : Option String := items.findSome? (Item.value? opt)

def Chosen (default : UInt64) : Option String → UInt64 → Prop
  | none, n => n = default
  | some text, n => Numeral text n

structure Asks (items : List Item) (options : Options) : Prop where
  program : programsIn items = [options.program]
  named : options.program ≠ ""
  once : (optsIn items).Nodup
  apart : .catalog ∉ optsIn items ∨ .syscalls ∉ optsIn items
  json : options.json = true ↔ .json ∈ optsIn items
  catalog : options.catalog? = valueIn? .catalog items
  located : options.catalog? ≠ some ""
  syscalls : Chosen 4096 (valueIn? .syscalls items) options.syscalls
  maxBytes : Chosen 2097152 (valueIn? .maxBytes items) options.maxBytes
  positive : options.maxBytes ≠ 0
  maxVars : Chosen 65536 (valueIn? .maxVars items) options.maxVars

section Numerals

theorem le_ofDigitChars (digits : List Char) (value : Nat) :
    value ≤ Nat.ofDigitChars 10 digits value := by
  induction digits generalizing value with
  | nil => exact Nat.le_refl _
  | cons c digits ih =>
    rw [Nat.ofDigitChars_cons]
    exact Nat.le_trans (by omega) (ih _)

theorem appendSize_eq_ok {digits : List Char} {value : Nat} {n : UInt64}
    (small : value < UInt64.size) :
    appendSize value digits = .ok n ↔
      (∀ c ∈ digits, c.isDigit = true) ∧ Nat.ofDigitChars 10 digits value = n.toNat := by
  induction digits generalizing value with
  | nil =>
    simp only [appendSize, Nat.ofDigitChars_nil, Except.ok.injEq, List.not_mem_nil]
    constructor
    · rintro rfl
      exact ⟨nofun, (UInt64.toNat_ofNat_of_lt' small).symm⟩
    · rintro ⟨_, rfl⟩
      exact UInt64.ofNat_toNat
  | cons c digits ih =>
    simp only [appendSize, List.forall_mem_cons, Nat.ofDigitChars_cons]
    by_cases digit : c.isDigit = true
    · by_cases next : 10 * value + (c.toNat - '0'.toNat) < UInt64.size
      · simp only [digit, if_true, if_pos next, ih next, true_and]
      · simp only [digit, if_true, if_neg next, true_and, reduceCtorEq, false_iff, not_and]
        intro _ same
        have least := le_ofDigitChars digits (10 * value + (c.toNat - '0'.toNat))
        rw [same] at least
        exact next (Nat.lt_of_le_of_lt least n.toNat_lt)
    · simp only [digit, if_false, Bool.false_eq_true, false_and, reduceCtorEq]

theorem parseSize_eq_ok {text : String} {n : UInt64} :
    parseSize text = .ok n ↔ Numeral text n := by
  have zero : 0 < UInt64.size := by decide
  unfold parseSize Numeral
  generalize text.toList = letters
  split
  · constructor
    · intro read
      cases read
    · rintro ⟨digits, some, _, same | same, _⟩
      · exact absurd same.symm some
      · cases same
  · constructor
    · intro read
      cases read
    · rintro ⟨digits, some, all, same | same, _⟩
      · cases same
        exact absurd (all '+' List.mem_cons_self) (by decide)
      · cases same
        exact absurd rfl some
  · rename_i digits some
    rw [appendSize_eq_ok zero]
    constructor
    · rintro ⟨all, value⟩
      exact ⟨digits, fun none => some (by rw [none]), all, .inr rfl, value⟩
    · rintro ⟨digits', _, all, same | same, value⟩
      · cases same
        exact absurd (all '+' List.mem_cons_self) (by decide)
      · cases same
        exact ⟨all, value⟩
  · rename_i none _ unsigned
    rw [appendSize_eq_ok zero]
    constructor
    · rintro ⟨all, value⟩
      exact ⟨letters, none, all, .inl rfl, value⟩
    · rintro ⟨digits, _, all, same | same, value⟩
      · cases same
        exact ⟨all, value⟩
      · exact absurd same (unsigned digits)

theorem parsePositive_eq_ok {text : String} {n : UInt64} :
    parsePositive text = .ok n ↔ Numeral text n ∧ n ≠ 0 := by
  unfold parsePositive
  rw [bind_eq_ok_iff]
  constructor
  · rintro ⟨size, read, result⟩
    split at result
    · cases result
    · rename_i positive
      cases result
      exact ⟨parseSize_eq_ok.mp read, positive⟩
  · rintro ⟨numeral, positive⟩
    exact ⟨n, parseSize_eq_ok.mpr numeral, if_neg positive⟩

end Numerals

section Texts

inductive Reads : String → Argument → Prop
  | separator : Reads "--" .separator
  | flag (opt : Opt) : Reads opt.flag (.option opt none)
  | attached (opt : Opt) (value : String) :
      Reads (opt.flag ++ "=" ++ value) (.option opt (some value))
  | unknown (text name : String) : Reads text (.unknown name)
  | plain {text : String} (plain : Plain text) : Reads text (.plain text)

theorem Opt.flag_of_ofFlag? {name : String} {opt : Opt} (found : Opt.ofFlag? name = some opt) :
    opt.flag = name := by
  have same := List.find?_some found
  exact eq_of_beq same

theorem reads_ofText (text : String) : Reads text (Argument.ofText text) := by
  unfold Argument.ofText
  split
  · rename_i letters
    have same : text = "--" := String.toList_inj.mp letters
    rw [same]
    exact .separator
  · rename_i rest _ letters
    cases found : Opt.ofFlag? ("--" ++ String.ofList (rest.takeWhile (· != '='))) with
    | none =>
      simp only [found]
      exact .unknown _ _
    | some opt =>
      have whole : text.toList = opt.flag.toList ++ rest.dropWhile (· != '=') := by
        rw [letters, Opt.flag_of_ofFlag? found]
        simp only [String.toList_append, String.toList_ofList, List.append_assoc,
          List.takeWhile_append_dropWhile]
        rfl
      simp only [found]
      cases after : rest.dropWhile (· != '=') with
      | nil =>
        rw [after, List.append_nil] at whole
        rw [String.toList_inj.mp whole]
        exact .flag opt
      | cons c value =>
        have equals : c = '=' := by
          have first := List.head?_dropWhile_not (· != '=') rest
          rw [after] at first
          simpa using first
        have same : text = opt.flag ++ "=" ++ String.ofList value := by
          apply String.toList_inj.mp
          rw [whole, after, equals]
          simp only [String.toList_append, String.toList_ofList, List.append_assoc]
          rfl
        rw [same]
        exact .attached opt _
  · exact .unknown _ _
  · rename_i separator long short
    apply Reads.plain
    cases letters : text.toList with
    | nil => exact .inr (by simp [letters])
    | cons c rest =>
      by_cases dash : c = '-'
      · subst dash
        cases rest with
        | nil => exact .inl (String.toList_inj.mp letters)
        | cons c rest => exact absurd letters (short c rest)
      · refine .inr ?_
        rw [letters]
        simpa using dash

theorem reads_of_ofText {text : String} {argument : Argument}
    (form : Argument.ofText text = argument) : Reads text argument :=
  form ▸ reads_ofText text

theorem ofText_of_plain {text : String} (plain : Plain text) :
    Argument.ofText text = .plain text := by
  unfold Argument.ofText
  rcases plain with rfl | other
  · rfl
  · have undashed {rest : List Char} (letters : text.toList = '-' :: rest) : False := by
      rw [letters] at other
      exact other rfl
    split
    · exact (undashed ‹_›).elim
    · exact (undashed ‹_›).elim
    · exact (undashed ‹_›).elim
    · rfl

theorem ofText_flag (opt : Opt) : Argument.ofText opt.flag = .option opt none := by
  cases opt <;> decide

theorem ofText_attached (opt : Opt) (value : String) :
    Argument.ofText (opt.flag ++ "=" ++ value) = .option opt (some value) := by
  obtain ⟨tail, letters, nonempty, free⟩ : ∃ tail, opt.flag.toList = '-' :: '-' :: tail ∧
      tail ≠ [] ∧ ∀ c ∈ tail, (c != '=') = true := by
    cases opt <;> exact ⟨_, rfl, by decide, List.all_eq_true.mp (by decide)⟩
  have name : "--" ++ String.ofList tail = opt.flag := by
    apply String.toList_inj.mp
    simp only [String.toList_append, String.toList_ofList, letters]
    rfl
  have whole : (opt.flag ++ "=" ++ value).toList = '-' :: '-' :: (tail ++ '=' :: value.toList) := by
    rw [String.toList_append, String.toList_append, letters]
    simp
  have found : Opt.ofFlag? opt.flag = some opt := by cases opt <;> decide
  unfold Argument.ofText
  rw [whole]
  cases tail with
  | nil => exact absurd rfl nonempty
  | cons c tail =>
    simp only [List.cons_append]
    rw [← List.cons_append, List.takeWhile_append_of_pos free, List.dropWhile_append_of_pos free]
    simp only [List.takeWhile_cons, List.dropWhile_cons, bne_self_eq_false, Bool.false_eq_true,
      if_false, List.append_nil, name, found, String.ofList_toList]

end Texts

section Arguments

variable {d e : Draft} {list rest : List String} {item : Item} {items : List Item}

theorem Opens.said (opens : Opens list item rest) (later : Says rest items) :
    Says list (item :: items) := by
  cases opens with
  | program form =>
    cases reads_of_ofText form with
    | plain plain => exact .program plain later
  | json form =>
    cases reads_of_ofText form
    exact .json later
  | attached form other =>
    cases reads_of_ofText form
    exact .attached other later
  | separate form other plain =>
    cases reads_of_ofText form
    cases reads_of_ofText plain with
    | plain own => exact .separate other own later

theorem foldlM_program (d : Draft) (names : List String) :
    (names.map Item.program).foldlM Draft.apply d = names.foldlM Draft.program d := by
  rw [List.foldlM_map]
  rfl

theorem arguments_eq_ok : d.arguments list = .ok e ↔
    ∃ items, Says list items ∧ items.foldlM Draft.apply d = .ok e := by
  constructor
  · intro read
    induction size : list.length using Nat.strongRecOn generalizing list d with
    | ind size ih =>
      cases list with
      | nil => exact ⟨[], .nil, read⟩
      | cons text rest =>
        by_cases bare : Argument.ofText text = .separator
        · cases reads_of_ofText bare
          rw [arguments_separator bare, ← foldlM_program] at read
          exact ⟨_, .separator rest, read⟩
        · rcases opens_of_arguments read bare with ⟨item, later, opens⟩
          rw [opens.arguments, bind_eq_ok_iff] at read
          rcases read with ⟨f, took, read⟩
          rcases ih later.length (size ▸ opens.length_lt) read rfl with ⟨items, said, ran⟩
          refine ⟨item :: items, opens.said said, ?_⟩
          rw [List.foldlM_cons, bind_eq_ok_iff]
          exact ⟨f, took, ran⟩
  · rintro ⟨items, said, ran⟩
    have step {list rest : List String} {item : Item} {items : List Item} {d : Draft}
        (opens : Opens list item rest) (ran : (item :: items).foldlM Draft.apply d = .ok e)
        (ih : ∀ {d : Draft}, items.foldlM Draft.apply d = .ok e → d.arguments rest = .ok e) :
        d.arguments list = .ok e := by
      rw [List.foldlM_cons, bind_eq_ok_iff] at ran
      rcases ran with ⟨f, took, ran⟩
      rw [opens.arguments, bind_eq_ok_iff]
      exact ⟨f, took, ih ran⟩
    induction said generalizing d with
    | nil => exact ran
    | program plain _ ih => exact step (.program (ofText_of_plain plain)) ran ih
    | json _ ih => exact step (.json ofText_json) ran ih
    | attached other _ ih => exact step (.attached (ofText_attached _ _) other) ran ih
    | separate other plain _ ih =>
      exact step (.separate (ofText_flag _) other (ofText_of_plain plain)) ran ih
    | separator names =>
      have bare : Argument.ofText "--" = .separator := by decide
      rw [arguments_separator bare, ← foldlM_program]
      exact ran

end Arguments

section Items

variable {d e : Draft} {items : List Item} {item : Item} {text : String} {opt : Opt}

theorem valueIn?_eq_none (absent : opt ∉ optsIn items) : valueIn? opt items = none := by
  apply List.findSome?_eq_none_iff.mpr
  intro item member
  cases item with
  | program | json => rfl
  | value other text =>
    apply if_neg
    rintro rfl
    exact absent (List.mem_filterMap.mpr ⟨_, member, rfl⟩)

theorem valueIn?_snoc (opt : Opt) (items : List Item) (item : Item) :
    valueIn? opt (items ++ [item]) = (valueIn? opt items).or (item.value? opt) := by
  rw [valueIn?, List.findSome?_append]
  cases h : item.value? opt <;> simp [valueIn?, h]

theorem valueIn?_snoc_of_none (unset : item.value? opt = none) :
    valueIn? opt (items ++ [item]) = valueIn? opt items := by
  rw [valueIn?_snoc, unset, Option.or_none]

theorem optsIn_snoc (items : List Item) (item : Item) :
    optsIn (items ++ [item]) = optsIn items ++ item.opt?.toList := by
  rw [optsIn, List.filterMap_append]
  cases h : item.opt? <;> simp [optsIn, h]

theorem programsIn_snoc (items : List Item) (item : Item) :
    programsIn (items ++ [item]) = programsIn items ++ item.program?.toList := by
  rw [programsIn, List.filterMap_append]
  cases h : item.program? <;> simp [programsIn, h]

theorem size_eq_ok {parse : String → Except SizeFault UInt64} {n : UInt64} :
    Draft.size opt text parse = .ok n ↔ parse text = .ok n := by
  unfold Draft.size
  cases parse text <;> simp

/-- The draft shows the text that was given for an option, or its default. -/
def Draft.Shows (d : Draft) (text? : Option String) : Opt → Prop
  | .catalog => d.catalog? = text? ∧ d.catalog? ≠ some ""
  | .syscalls => Chosen 4096 text? d.syscalls
  | .json => text? = none
  | .maxBytes => Chosen 2097152 text? d.maxBytes ∧ d.maxBytes ≠ 0
  | .maxVars => Chosen 65536 text? d.maxVars

theorem Draft.set_ok (ran : d.set opt text = .ok e) :
    opt ∉ d.given ∧ e.given = d.given ++ [opt] ∧ e.program? = d.program? ∧ e.json = d.json ∧
      e.Shows (some text) opt ∧ ∀ other text?, other ≠ opt → d.Shows text? other →
        e.Shows text? other := by
  rcases bind_eq_ok_iff.mp ran with ⟨f, noted, filled⟩
  rcases Draft.note_eq_ok.mp noted with ⟨fresh, rfl⟩
  refine ⟨fresh, ?_⟩
  cases opt with
  | catalog =>
    simp only at filled
    split at filled
    · cases filled
    · rename_i located
      cases filled
      refine ⟨rfl, rfl, rfl, ⟨rfl, ?_⟩, ?_⟩
      · rintro ⟨⟩
        exact located rfl
      · intro other text? different shows
        cases other with
        | catalog => exact absurd rfl different
        | _ => exact shows
  | syscalls =>
    rcases bind_eq_ok_iff.mp filled with ⟨n, read, ⟨⟩⟩
    refine ⟨rfl, rfl, rfl, parseSize_eq_ok.mp (size_eq_ok.mp read), ?_⟩
    intro other text? different shows
    cases other with
    | syscalls => exact absurd rfl different
    | _ => exact shows
  | maxBytes =>
    rcases bind_eq_ok_iff.mp filled with ⟨n, read, ⟨⟩⟩
    refine ⟨rfl, rfl, rfl, parsePositive_eq_ok.mp (size_eq_ok.mp read), ?_⟩
    intro other text? different shows
    cases other with
    | maxBytes => exact absurd rfl different
    | _ => exact shows
  | maxVars =>
    rcases bind_eq_ok_iff.mp filled with ⟨n, read, ⟨⟩⟩
    refine ⟨rfl, rfl, rfl, parseSize_eq_ok.mp (size_eq_ok.mp read), ?_⟩
    intro other text? different shows
    cases other with
    | maxVars => exact absurd rfl different
    | _ => exact shows
  | json => cases filled

structure Holds (items : List Item) (d : Draft) : Prop where
  program : programsIn items = d.program?.toList
  named : d.program? ≠ some ""
  given : d.given = optsIn items
  once : (optsIn items).Nodup
  json : d.json = true ↔ .json ∈ optsIn items
  shows (opt : Opt) : d.Shows (valueIn? opt items) opt

theorem holds_nil : Holds [] {} where
  program := rfl
  named := nofun
  given := rfl
  once := .nil
  json := by decide
  shows opt := by
    cases opt with
    | catalog => exact ⟨rfl, nofun⟩
    | maxBytes => exact ⟨rfl, by decide⟩
    | _ => rfl

theorem Holds.of_program (holds : Holds items d) {name : String} (ran : d.program name = .ok e) :
    Holds (items ++ [.program name]) e := by
  rcases Draft.program_eq_ok.mp ran with ⟨first, nonempty, rfl⟩
  have same : optsIn (items ++ [.program name]) = optsIn items := by
    rw [optsIn_snoc]
    exact List.append_nil _
  constructor
  case program =>
    rw [programsIn_snoc, holds.program, first]
    rfl
  case named =>
    rintro ⟨⟩
    cases nonempty
  case given => rw [same, ← holds.given]
  case once => rw [same]; exact holds.once
  case json => rw [same]; exact holds.json
  case shows =>
    intro opt
    have shows := holds.shows opt
    rw [valueIn?_snoc_of_none rfl]
    cases opt <;> exact shows

theorem Holds.of_opt (holds : Holds items d) (bare : item.program? = none)
    (own : item.opt? = some opt) (fresh : opt ∉ d.given) (given : e.given = d.given ++ [opt])
    (program : e.program? = d.program?) (json : e.json = true ↔ d.json = true ∨ opt = .json)
    (shows : ∀ opt, e.Shows (valueIn? opt (items ++ [item])) opt) : Holds (items ++ [item]) e := by
  have more : optsIn (items ++ [item]) = optsIn items ++ [opt] := by
    rw [optsIn_snoc, own]
    rfl
  rw [holds.given] at fresh given
  constructor
  case program =>
    rw [programsIn_snoc, bare, program]
    exact (List.append_nil _).trans holds.program
  case named =>
    rw [program]
    exact holds.named
  case given => rw [given, more]
  case once =>
    rw [more]
    exact List.nodup_append.mpr ⟨holds.once, by simp, by
      intro other member last found
      rw [List.mem_singleton.mp found]
      rintro rfl
      exact fresh member⟩
  case json => rw [json, more, holds.json, List.mem_append, List.mem_singleton, eq_comm]
  case shows => exact shows

theorem Holds.apply (holds : Holds items d) (ran : d.apply item = .ok e) :
    Holds (items ++ [item]) e := by
  cases item with
  | program name => exact holds.of_program ran
  | json =>
    rcases bind_eq_ok_iff.mp ran with ⟨f, noted, ⟨⟩⟩
    rcases Draft.note_eq_ok.mp noted with ⟨fresh, rfl⟩
    refine holds.of_opt rfl rfl fresh rfl rfl (by simp) ?_
    intro opt
    have shows := holds.shows opt
    rw [valueIn?_snoc_of_none rfl]
    cases opt <;> exact shows
  | value opt text =>
    rcases Draft.set_ok ran with ⟨fresh, given, program, json, own, others⟩
    have unset : opt ≠ .json := by
      rintro rfl
      exact nomatch own
    refine holds.of_opt rfl rfl fresh given program (by simp [json, unset]) ?_
    intro other
    by_cases same : other = opt
    · subst same
      rw [holds.given] at fresh
      rw [valueIn?_snoc, valueIn?_eq_none fresh, Option.none_or]
      simpa [Item.value?] using own
    · have unset : Item.value? other (.value opt text) = none := if_neg (Ne.symm same)
      rw [valueIn?_snoc_of_none unset]
      exact others other _ same (holds.shows other)

theorem Holds.foldlM {later : List Item} (holds : Holds items d)
    (ran : later.foldlM Draft.apply d = .ok e) : Holds (items ++ later) e := by
  induction later generalizing items d with
  | nil =>
    cases ran
    rw [List.append_nil]
    exact holds
  | cons item later ih =>
    rw [List.foldlM_cons, bind_eq_ok_iff] at ran
    rcases ran with ⟨f, took, ran⟩
    rw [List.append_cons]
    exact ih (holds.apply took) ran

theorem Draft.apart_of_options {options : Options} (whole : d.options = .ok options) :
    .catalog ∉ d.given ∨ .syscalls ∉ d.given := by
  apply Classical.byContradiction
  intro both
  rw [not_or, Classical.not_not, Classical.not_not] at both
  have listed {opt : Opt} (given : opt ∈ d.given)
      (source : (opt == .catalog || opt == .syscalls) = true) :
      opt ∈ d.given.filter fun opt => opt == .catalog || opt == .syscalls :=
    List.mem_filter.mpr ⟨given, source⟩
  have catalog := listed both.1 rfl
  have syscalls := listed both.2 rfl
  unfold Draft.options at whole
  split at whole
  · cases whole
  · rename_i single
    cases found : d.given.filter fun opt => opt == .catalog || opt == .syscalls with
    | nil =>
      rw [found] at catalog
      cases catalog
    | cons first others =>
      cases others with
      | nil =>
        rw [found, List.mem_singleton] at catalog syscalls
        cases catalog.trans syscalls.symm
      | cons second others => exact single _ _ _ found

theorem Draft.options_of_apart {name : String} (once : d.given.Nodup)
    (apart : .catalog ∉ d.given ∨ .syscalls ∉ d.given) (named : d.program? = some name) :
    ∃ options, d.options = .ok options := by
  unfold Draft.options
  split
  · rename_i first second others found
    have source {opt : Opt} (member : opt ∈ first :: second :: others) :
        opt ∈ d.given ∧ (opt = .catalog ∨ opt = .syscalls) := by
      rw [← found] at member
      simpa using List.mem_filter.mp member
    have one := source List.mem_cons_self
    have two := source (.tail _ List.mem_cons_self)
    have distinct := once.filter fun opt => opt == .catalog || opt == .syscalls
    rw [found] at distinct
    have different : first ≠ second := by
      rintro rfl
      exact (List.nodup_cons.mp distinct).1 List.mem_cons_self
    exfalso
    rcases one with ⟨given, rfl | rfl⟩ <;> rcases two with ⟨given', rfl | rfl⟩
    · exact different rfl
    · exact apart.elim (· given) (· given')
    · exact apart.elim (· given') (· given)
    · exact different rfl
  · rw [named]
    exact ⟨_, rfl⟩

theorem Holds.asks {options : Options} (holds : Holds items d) (whole : d.options = .ok options) :
    Asks items options := by
  rcases Draft.options_eq_ok whole with ⟨named, same⟩
  have program := holds.program
  have nonempty := holds.named
  have apart := Draft.apart_of_options whole
  rw [named] at program nonempty
  rw [holds.given] at apart
  rw [same]
  exact {
    program
    named := fun empty => nonempty (congrArg some empty)
    once := holds.once
    apart
    json := holds.json
    catalog := (holds.shows .catalog).1
    located := (holds.shows .catalog).2
    syscalls := holds.shows .syscalls
    maxBytes := (holds.shows .maxBytes).1
    positive := (holds.shows .maxBytes).2
    maxVars := holds.shows .maxVars }

def Opt.Takes (text : String) : Opt → Prop
  | .catalog => text ≠ ""
  | .json => False
  | .syscalls | .maxVars => ∃ n, Numeral text n
  | .maxBytes => ∃ n, Numeral text n ∧ n ≠ 0

theorem Draft.set_of_takes (takes : opt.Takes text) (fresh : opt ∉ d.given) :
    ∃ e, d.set opt text = .ok e := by
  have noted := Draft.note_eq_ok.mpr ⟨fresh, rfl⟩
  cases opt with
  | json => exact takes.elim
  | catalog =>
    have located : ¬ text.isEmpty = true := mt String.isEmpty_iff.mp takes
    exact ⟨_, bind_eq_ok_iff.mpr ⟨_, noted, if_neg located⟩⟩
  | syscalls | maxVars =>
    rcases takes with ⟨n, numeral⟩
    have read := parseSize_eq_ok.mpr numeral
    exact ⟨_, bind_eq_ok_iff.mpr ⟨_, noted, bind_eq_ok_iff.mpr ⟨n, size_eq_ok.mpr read, rfl⟩⟩⟩
  | maxBytes =>
    rcases takes with ⟨n, numeral⟩
    have read := parsePositive_eq_ok.mpr numeral
    exact ⟨_, bind_eq_ok_iff.mpr ⟨_, noted, bind_eq_ok_iff.mpr ⟨n, size_eq_ok.mpr read, rfl⟩⟩⟩

theorem Asks.takes {options : Options} (asks : Asks items options) (other : opt ≠ .json)
    (given : valueIn? opt items = some text) : opt.Takes text := by
  have chosen {default n : UInt64} (chosen : Chosen default (valueIn? opt items) n) :
      Numeral text n := by
    rw [given] at chosen
    exact chosen
  cases opt with
  | json => exact absurd rfl other
  | catalog =>
    rintro rfl
    exact asks.located (asks.catalog.trans given)
  | syscalls => exact ⟨_, chosen asks.syscalls⟩
  | maxBytes => exact ⟨_, chosen asks.maxBytes, asks.positive⟩
  | maxVars => exact ⟨_, chosen asks.maxVars⟩

theorem Holds.apply_next {options : Options} {later : List Item} (holds : Holds items d)
    (asks : Asks (items ++ item :: later) options) (bare : ∀ text, item ≠ .value .json text) :
    ∃ e, d.apply item = .ok e := by
  have fresh {opt : Opt} (own : item.opt? = some opt) : opt ∉ d.given := by
    have once := asks.once
    rw [List.append_cons, optsIn, List.filterMap_append] at once
    have front := (List.nodup_append.mp once).1
    change (optsIn (items ++ [item])).Nodup at front
    rw [optsIn_snoc, own] at front
    rw [holds.given]
    intro member
    exact (List.nodup_append.mp front).2.2 opt member opt List.mem_cons_self rfl
  cases item with
  | program name =>
    have named := asks.program
    rw [programsIn, List.filterMap_append] at named
    change programsIn items ++ name :: _ = _ at named
    rw [holds.program] at named
    cases first : d.program? with
    | none =>
      rw [first] at named
      have same : name = options.program := (List.cons.inj named).1
      have nonempty : name.isEmpty = false := by
        rw [Bool.eq_false_iff, same]
        exact mt String.isEmpty_iff.mp asks.named
      exact ⟨_, Draft.program_eq_ok.mpr ⟨first, nonempty, rfl⟩⟩
    | some other =>
      rw [first] at named
      have two := congrArg List.length named
      simp at two
  | json =>
    have noted := Draft.note_eq_ok.mpr ⟨fresh rfl, rfl⟩
    exact ⟨_, bind_eq_ok_iff.mpr ⟨_, noted, rfl⟩⟩
  | value opt text =>
    have unset := fresh rfl
    have given : valueIn? opt (items ++ .value opt text :: later) = some text := by
      rw [holds.given] at unset
      rw [List.append_cons, valueIn?, List.findSome?_append]
      change (valueIn? opt (items ++ [.value opt text])).or _ = _
      rw [valueIn?_snoc, valueIn?_eq_none unset]
      simp [Item.value?]
    have other : opt ≠ .json := by
      rintro rfl
      exact bare text rfl
    exact Draft.set_of_takes (asks.takes other given) unset

theorem Holds.foldlM_next {options : Options} {later : List Item} (holds : Holds items d)
    (asks : Asks (items ++ later) options) (bare : ∀ text, .value .json text ∉ later) :
    ∃ e, later.foldlM Draft.apply d = .ok e := by
  induction later generalizing items d with
  | nil => exact ⟨d, rfl⟩
  | cons item later ih =>
    have plain (text : String) : item ≠ .value .json text := by
      rintro rfl
      exact bare text List.mem_cons_self
    rcases holds.apply_next asks plain with ⟨f, took⟩
    rw [List.append_cons] at asks
    rcases ih (holds.apply took) asks fun text member => bare text (.tail _ member) with ⟨e, ran⟩
    refine ⟨e, ?_⟩
    rw [List.foldlM_cons, bind_eq_ok_iff]
    exact ⟨f, took, ran⟩

theorem Says.bare {list : List String} (said : Says list items) (text : String) :
    .value .json text ∉ items := by
  induction said with
  | nil => nofun
  | program _ _ ih | json _ ih => simpa using ih
  | attached other _ ih | separate other _ _ ih =>
    rw [List.mem_cons, not_or]
    refine ⟨?_, ih⟩
    rintro ⟨⟩
    exact other rfl
  | separator names => simp

theorem Chosen.unique {default n n' : UInt64} {text? : Option String}
    (one : Chosen default text? n) (other : Chosen default text? n') : n = n' := by
  cases text? with
  | none => exact one.trans other.symm
  | some text =>
    have same := (parseSize_eq_ok.mpr one).symm.trans (parseSize_eq_ok.mpr other)
    exact Except.ok.inj same

theorem Asks.unique {options options' : Options} (asks : Asks items options)
    (asks' : Asks items options') : options = options' := by
  have program := List.singleton_inj.mp (asks.program.symm.trans asks'.program)
  have json : options.json = options'.json := by
    rw [Bool.eq_iff_iff, asks.json, asks'.json]
  have catalog := asks.catalog.trans asks'.catalog.symm
  have syscalls := asks.syscalls.unique asks'.syscalls
  have maxBytes := asks.maxBytes.unique asks'.maxBytes
  have maxVars := asks.maxVars.unique asks'.maxVars
  cases options
  cases options'
  congr

theorem Holds.options {options : Options} (holds : Holds items d) (asks : Asks items options) :
    ∃ options', d.options = .ok options' := by
  have named : d.program? = some options.program := by
    have program := holds.program.symm.trans asks.program
    cases first : d.program? with
    | none =>
      rw [first] at program
      cases program
    | some name =>
      rw [first] at program
      exact congrArg some (List.cons.inj program).1
  apply Draft.options_of_apart (holds.given ▸ holds.once) _ named
  rw [holds.given]
  exact asks.apart

end Items

/-- The command lines that are understood are those made of items, and they ask for what the items
say. -/
theorem Options.parse_eq_ok_iff {arguments : List String} {options : Options} :
    Options.parse arguments = .ok options ↔
      ∃ items, Says arguments items ∧ Asks items options := by
  constructor
  · intro parsed
    rcases bind_eq_ok_iff.mp parsed with ⟨d, read, whole⟩
    rcases arguments_eq_ok.mp read with ⟨items, said, ran⟩
    exact ⟨items, said, (holds_nil.foldlM ran).asks whole⟩
  · rintro ⟨items, said, asks⟩
    rcases holds_nil.foldlM_next asks said.bare with ⟨d, ran⟩
    have holds := holds_nil.foldlM ran
    rcases holds.options asks with ⟨options', whole⟩
    cases asks.unique (holds.asks whole)
    exact bind_eq_ok_iff.mpr ⟨d, arguments_eq_ok.mpr ⟨items, said, ran⟩, whole⟩

end SyscallStream.Cli
