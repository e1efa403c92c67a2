import SyscallStream.Cli.Options

/-! The flag that asks for JSON. A command line with the flag among its arguments asks for the same
as the command line without it, but for JSON. -/

namespace SyscallStream.Cli

theorem bind_eq_ok_iff {ε α β : Type} {step : Except ε α} {next : α → Except ε β} {b : β} :
    (step >>= next) = .ok b ↔ ∃ a, step = .ok a ∧ next a = .ok b := by
  cases step with
  | ok a =>
    constructor
    · intro ran
      exact ⟨a, rfl, ran⟩
    · rintro ⟨_, ⟨⟩, ran⟩
      exact ran
  | error error =>
    constructor
    · intro ran
      cases ran
    · rintro ⟨_, ⟨⟩, _⟩

namespace Draft

variable {d e d' e' : Draft} {text : String} {opt : Opt}

theorem program_eq_ok : d.program text = .ok e ↔
    d.program? = none ∧ text.isEmpty = false ∧ e = { d with program? := some text } := by
  unfold Draft.program
  cases d.program? with
  | some program => simp
  | none => cases text.isEmpty <;> simp [eq_comm]

theorem note_eq_ok : d.note opt = .ok e ↔
    opt ∉ d.given ∧ e = { d with given := d.given ++ [opt] } := by
  unfold note
  by_cases given : opt ∈ d.given <;> simp [given, eq_comm]

def WithJson (d d' : Draft) : Prop := d' = { d with json := true, given := d'.given }

theorem WithJson.note (flagged : d.WithJson d') (noted : d.note opt = .ok e)
    (noted' : d'.note opt = .ok e') : e.WithJson e' := by
  rcases note_eq_ok.mp noted with ⟨_, rfl⟩
  rcases note_eq_ok.mp noted' with ⟨_, rfl⟩
  rw [flagged]
  rfl

theorem WithJson.program (flagged : d.WithJson d') (named : d.program text = .ok e)
    (named' : d'.program text = .ok e') : e.WithJson e' := by
  rcases program_eq_ok.mp named with ⟨_, _, rfl⟩
  rcases program_eq_ok.mp named' with ⟨_, _, rfl⟩
  rw [flagged]
  rfl

theorem WithJson.set (flagged : d.WithJson d') (given : d.set opt text = .ok e)
    (given' : d'.set opt text = .ok e') : e.WithJson e' := by
  rcases bind_eq_ok_iff.mp given with ⟨f, noted, filled⟩
  rcases bind_eq_ok_iff.mp given' with ⟨f', noted', filled'⟩
  have same := flagged.note noted noted'
  cases opt with
  | catalog =>
    simp only at filled filled'
    split at filled
    · cases filled
    · split at filled'
      · cases filled'
      · cases filled
        cases filled'
        rw [same]
        rfl
  | syscalls | maxBytes | maxVars =>
    rcases bind_eq_ok_iff.mp filled with ⟨size, read, ⟨⟩⟩
    rcases bind_eq_ok_iff.mp filled' with ⟨size', read', ⟨⟩⟩
    rw [read] at read'
    cases read'
    rw [same]
    rfl
  | json => cases filled

theorem WithJson.programs {list : List String} (flagged : d.WithJson d')
    (named : list.foldlM Draft.program d = .ok e)
    (named' : list.foldlM Draft.program d' = .ok e') : e.WithJson e' := by
  induction list generalizing d d' with
  | nil =>
    cases named
    cases named'
    exact flagged
  | cons text rest ih =>
    rw [List.foldlM_cons, bind_eq_ok_iff] at named named'
    rcases named with ⟨f, first, named⟩
    rcases named' with ⟨f', first', named'⟩
    exact ih (flagged.program first first') named named'

end Draft

inductive Item where
  | program (name : String)
  | json
  | value (opt : Opt) (text : String)

def Draft.apply (d : Draft) : Item → Except UsageError Draft
  | .program name => d.program name
  | .json => do return { ← d.note .json with json := true }
  | .value opt text => d.set opt text

/-- A list of arguments starts with an item, and other arguments follow. -/
inductive Opens : List String → Item → List String → Prop
  | program {text name : String} {rest : List String} (plain : Argument.ofText text = .plain name) :
      Opens (text :: rest) (.program name) rest
  | json {text : String} {rest : List String} (flag : Argument.ofText text = .option .json none) :
      Opens (text :: rest) .json rest
  | attached {text value : String} {opt : Opt} {rest : List String}
      (own : Argument.ofText text = .option opt (some value)) (other : opt ≠ .json) :
      Opens (text :: rest) (.value opt value) rest
  | separate {text value content : String} {opt : Opt} {rest : List String}
      (own : Argument.ofText text = .option opt none) (other : opt ≠ .json)
      (plain : Argument.ofText value = .plain content) :
      Opens (text :: value :: rest) (.value opt content) rest

section Opening

variable {d e d' e' : Draft} {list rest : List String} {item : Item} {text : String}

theorem Opens.length_lt (opens : Opens list item rest) : rest.length < list.length := by
  cases opens <;> simp only [List.length_cons] <;> omega

theorem Opens.arguments (opens : Opens list item rest) (d : Draft) :
    d.arguments list = d.apply item >>= (·.arguments rest) := by
  cases opens with
  | program plain => simp only [Draft.arguments, plain, Draft.apply]
  | json flag =>
    simp only [Draft.arguments, flag, Draft.apply, bind_assoc]
    rfl
  | attached own other => simp only [Draft.arguments, own, Draft.apply]
  | separate own other plain => simp only [Draft.arguments, own, plain, Draft.apply]

theorem arguments_separator (bare : Argument.ofText text = .separator) (d : Draft) :
    d.arguments (text :: rest) = rest.foldlM Draft.program d := by
  simp only [Draft.arguments, bare]

/-- What is accepted starts with an item, unless only programs follow. -/
theorem opens_of_arguments (read : d.arguments (text :: rest) = .ok e)
    (other : Argument.ofText text ≠ .separator) :
    ∃ item later, Opens (text :: rest) item later := by
  cases form : Argument.ofText text with
  | separator => exact absurd form other
  | unknown name =>
    simp only [Draft.arguments, form] at read
    cases read
  | plain name => exact ⟨_, _, .program form⟩
  | option opt value? =>
    by_cases json : opt = .json
    · subst json
      cases value? with
      | none => exact ⟨_, _, .json form⟩
      | some value =>
        simp only [Draft.arguments, form] at read
        cases read
    · cases value? with
      | some value => exact ⟨_, _, .attached form json⟩
      | none =>
        cases rest with
        | nil =>
          simp only [Draft.arguments, form] at read
          cases read
        | cons value rest =>
          cases own : Argument.ofText value with
          | plain content => exact ⟨_, _, .separate form json own⟩
          | _ =>
            simp only [Draft.arguments, form, own] at read
            cases read

theorem Draft.WithJson.apply (flagged : d.WithJson d') (took : d.apply item = .ok e)
    (took' : d'.apply item = .ok e') : e.WithJson e' := by
  cases item with
  | program name => exact flagged.program took took'
  | json =>
    rcases bind_eq_ok_iff.mp took with ⟨f, noted, ⟨⟩⟩
    rcases bind_eq_ok_iff.mp took' with ⟨f', noted', ⟨⟩⟩
    rw [flagged.note noted noted']
    rfl
  | value opt text => exact flagged.set took took'

theorem Draft.WithJson.arguments (flagged : d.WithJson d') (read : d.arguments list = .ok e)
    (read' : d'.arguments list = .ok e') : e.WithJson e' := by
  induction size : list.length using Nat.strongRecOn generalizing list d d' with
  | ind size ih =>
    cases list with
    | nil =>
      cases read
      cases read'
      exact flagged
    | cons text rest =>
      by_cases bare : Argument.ofText text = .separator
      · rw [arguments_separator bare] at read read'
        exact flagged.programs read read'
      · rcases opens_of_arguments read bare with ⟨item, later, opens⟩
        rw [opens.arguments, bind_eq_ok_iff] at read read'
        rcases read with ⟨f, took, read⟩
        rcases read' with ⟨f', took', read'⟩
        exact ih later.length (size ▸ opens.length_lt) (flagged.apply took took') read read' rfl

end Opening

section Inserting

variable {d e e' : Draft} {front back rest : List String} {item : Item} {text : String}

theorem ofText_json : Argument.ofText "--json" = .option .json none := by decide

/-- The flag does not stand where a value is expected. -/
theorem Opens.of_insert (opens : Opens (text :: (front ++ "--json" :: back)) item rest) :
    ∃ later, later.length < (text :: front).length ∧ rest = later ++ "--json" :: back ∧
      Opens (text :: (front ++ back)) item (later ++ back) := by
  generalize whole : front ++ "--json" :: back = list at opens
  cases opens with
  | program plain => exact ⟨front, Nat.lt_succ_self _, whole.symm, .program plain⟩
  | json flag => exact ⟨front, Nat.lt_succ_self _, whole.symm, .json flag⟩
  | attached own other => exact ⟨front, Nat.lt_succ_self _, whole.symm, .attached own other⟩
  | separate own other plain =>
    cases front with
    | nil =>
      rw [List.nil_append, List.cons.injEq] at whole
      rw [← whole.1, ofText_json] at plain
      cases plain
    | cons value front =>
      rw [List.cons_append, List.cons.injEq] at whole
      rcases whole with ⟨rfl, rfl⟩
      refine ⟨front, ?_, rfl, .separate own other plain⟩
      simp only [List.length_cons]
      omega

def Draft.programs (d : Draft) : Nat := d.program?.toList.length

theorem Draft.programs_le (d : Draft) : d.programs ≤ 1 := by
  unfold Draft.programs
  cases d.program? <;> simp

theorem programs_of_foldlM {list : List String} (named : list.foldlM Draft.program d = .ok e) :
    e.programs = d.programs + list.length := by
  induction list generalizing d with
  | nil =>
    cases named
    rfl
  | cons text rest ih =>
    rw [List.foldlM_cons, bind_eq_ok_iff] at named
    rcases named with ⟨f, first, named⟩
    rcases Draft.program_eq_ok.mp first with ⟨none, _, rfl⟩
    rw [ih named]
    simp only [Draft.programs, none, Option.toList, List.length_cons, List.length_nil]
    omega

theorem Draft.withJson_of_insert (read : d.arguments (front ++ back) = .ok e)
    (read' : d.arguments (front ++ "--json" :: back) = .ok e') (named : e.programs = 1) :
    e.WithJson e' := by
  induction size : front.length using Nat.strongRecOn generalizing front d with
  | ind size ih =>
    cases front with
    | nil =>
      have opens : Opens ("--json" :: back) .json back := .json ofText_json
      rw [List.nil_append, opens.arguments, bind_eq_ok_iff] at read'
      rcases read' with ⟨f, took, read'⟩
      rcases bind_eq_ok_iff.mp took with ⟨g, noted, ⟨⟩⟩
      rcases note_eq_ok.mp noted with ⟨_, rfl⟩
      have flagged : d.WithJson { d with json := true, given := d.given ++ [.json] } := rfl
      exact flagged.arguments read read'
    | cons text front =>
      rw [List.cons_append] at read read'
      by_cases bare : Argument.ofText text = .separator
      · -- Behind `--` the flag would be one more program.
        rw [arguments_separator bare] at read read'
        have count := programs_of_foldlM read
        have count' := programs_of_foldlM read'
        have most := e'.programs_le
        simp only [List.length_append, List.length_cons] at count count'
        omega
      · rcases opens_of_arguments read' bare with ⟨item, rest, opens'⟩
        rcases opens'.of_insert with ⟨later, shorter, rfl, opens⟩
        rw [opens.arguments, bind_eq_ok_iff] at read
        rw [opens'.arguments, bind_eq_ok_iff] at read'
        rcases read with ⟨f, took, read⟩
        rcases read' with ⟨f', took', read'⟩
        rw [took] at took'
        cases took'
        exact ih later.length (size ▸ shorter) read read' rfl

theorem Draft.options_eq_ok {options : Options} (whole : e.options = .ok options) :
    e.program? = some options.program ∧
      options = { program := options.program, catalog? := e.catalog?, syscalls := e.syscalls,
                  json := e.json, maxBytes := e.maxBytes, maxVars := e.maxVars } := by
  unfold Draft.options at whole
  split at whole
  · cases whole
  · split at whole
    · cases whole
    · rename_i named
      cases whole
      exact ⟨named, rfl⟩

theorem Options.parse_insert_json {options options' : Options}
    (parsed : Options.parse (front ++ back) = .ok options)
    (parsed' : Options.parse (front ++ "--json" :: back) = .ok options') :
    options' = { options with json := true } := by
  rcases bind_eq_ok_iff.mp parsed with ⟨e, read, whole⟩
  rcases bind_eq_ok_iff.mp parsed' with ⟨e', read', whole'⟩
  rcases Draft.options_eq_ok whole with ⟨named, same⟩
  rcases Draft.options_eq_ok whole' with ⟨named', same'⟩
  have flagged : e.WithJson e' := by
    apply Draft.withJson_of_insert read read'
    rw [Draft.programs, named]
    rfl
  rw [flagged] at named' same'
  rw [same', same]
  simp only [named, Option.some.injEq] at named'
  rw [named']

end Inserting

end SyscallStream.Cli
