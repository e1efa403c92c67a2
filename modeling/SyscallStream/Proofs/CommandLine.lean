import SyscallStream.Cli.Run
import SyscallStream.Proofs.CommandSyntax
import SyscallStream.Proofs.RoundTrip

/-! What a run of the command line prints: the whole program and nothing else, or the first stage
that failed and nothing else. -/

namespace SyscallStream.Cli

abbrev Files := String → Except FileError Bytes

def runOn (wording? : Option (String → String)) (files : Files) (arguments : List String) :
    Report :=
  Id.run (run (fun path => pure (files path)) wording? arguments)

theorem runIn_eq (folder : Folder) : runIn folder = runOn none folder.read := rfl

def Utf8 (bytes : Bytes) (text : String) : Prop :=
  bytes = text.toList.flatMap String.utf8EncodeChar

inductive Catalogued (files : Files) (options : Options) : Table → Prop
  /-- Memory is assumed to hold the placeholders, however many are asked for. -/
  | anonymous (bare : options.catalog? = none) :
      Catalogued files options (.anonymous options.syscalls.toNat)
  | named {path : String} {bytes : Bytes} {text : String} {table : Table}
      (given : options.catalog? = some path) (read : files path = .ok bytes)
      (legible : Utf8 bytes text) (parsed : Table.ofText text = .ok table) :
      Catalogued files options table

def Yields (files : Files) (options : Options) (program : Program) : Prop :=
  ∃ table bytes, Catalogued files options table ∧ files options.program = .ok bytes ∧
    decode table.catalog { maxBytes := options.maxBytes, maxVars := options.maxVars } bytes =
      .ok program

inductive Stage where
  | readCatalog
  | parseCatalog
  | readProgram
  | decodeProgram
  deriving DecidableEq, Repr

namespace Stage

def label : Stage → String
  | .readCatalog => "read catalog"
  | .parseCatalog => "parse catalog"
  | .readProgram => "read program"
  | .decodeProgram => "decode program"

def earlier : Stage → List Stage
  | .readCatalog => []
  | .parseCatalog => [.readCatalog]
  | .readProgram => [.readCatalog, .parseCatalog]
  | .decodeProgram => [.readCatalog, .parseCatalog, .readProgram]

def path (options : Options) : Stage → String
  | .readCatalog | .parseCatalog => options.catalog?.getD ""
  | .readProgram | .decodeProgram => options.program

def Passes (files : Files) (options : Options) : Stage → Prop
  | .readCatalog => ∀ path, options.catalog? = some path →
      ∃ bytes text, files path = .ok bytes ∧ Utf8 bytes text
  | .parseCatalog => ∃ table, Catalogued files options table
  | .readProgram => ∃ bytes, files options.program = .ok bytes
  | .decodeProgram => ∃ program, Yields files options program

/-- The first stage that fails, whatever would become of the later ones. -/
def FailsFirst (files : Files) (options : Options) (stage : Stage) : Prop :=
  ¬ stage.Passes files options ∧ ∀ other ∈ stage.earlier, other.Passes files options

def Names (options : Options) (err : String) (stage : Stage) : Prop :=
  ∃ cause, err = "Error: " ++ stage.label ++
    (" " ++ stage.path options ++ "\n\nCaused by:\n    " ++ cause)

end Stage

def Failure.stage : Failure → Stage
  | .readCatalog .. | .catalogNotText .. => .readCatalog
  | .parseCatalog .. => .parseCatalog
  | .readProgram .. => .readProgram
  | .decodeProgram .. => .decodeProgram

inductive Uncatalogued (files : Files) (options : Options) : Failure → Prop
  | unread {path : String} {error : FileError} (given : options.catalog? = some path)
      (refused : files path = .error error) :
      Uncatalogued files options (.readCatalog path error)
  | illegible {path : String} {bytes : Bytes} (given : options.catalog? = some path)
      (read : files path = .ok bytes) (refused : ∀ text, ¬ Utf8 bytes text) :
      Uncatalogued files options (.catalogNotText path)
  | unparsed {path : String} {bytes : Bytes} {text : String} {error : CatalogError}
      (given : options.catalog? = some path) (read : files path = .ok bytes)
      (legible : Utf8 bytes text) (refused : Table.ofText text = .error error) :
      Uncatalogued files options (.parseCatalog path text error)

inductive Refuses (files : Files) (options : Options) : Failure → Prop
  | uncatalogued {failure : Failure} (cause : Uncatalogued files options failure) :
      Refuses files options failure
  | unread {table : Table} {error : FileError} (catalogued : Catalogued files options table)
      (refused : files options.program = .error error) :
      Refuses files options (.readProgram options.program error)
  | undecoded {table : Table} {bytes : Bytes} {error : DecodeError}
      (catalogued : Catalogued files options table) (read : files options.program = .ok bytes)
      (refused : decode table.catalog { maxBytes := options.maxBytes, maxVars := options.maxVars }
        bytes = .error error) :
      Refuses files options (.decodeProgram options.program error)

theorem textOf?_eq_some {bytes : Bytes} {text : String} :
    textOf? bytes = some text ↔ Utf8 bytes text := by
  have encoded : text.toByteArray = (text.toList.flatMap String.utf8EncodeChar).toByteArray :=
    String.utf8Encode_toList.symm
  have same : text.toByteArray = ⟨bytes.toArray⟩ ↔ Utf8 bytes text := by
    rw [encoded, ByteArray.ext_iff, List.data_toByteArray, Utf8, eq_comm]
    exact ⟨fun equal => (Array.toList_inj.mpr equal), fun equal => congrArg List.toArray equal⟩
  rw [← same]
  unfold textOf? String.fromUTF8?
  constructor
  · intro read
    split at read
    · cases read
      rfl
    · cases read
  · intro equal
    have valid : ByteArray.IsValidUTF8 ⟨bytes.toArray⟩ := equal ▸ text.isValidUTF8
    rw [dif_pos valid]
    exact congrArg some (String.toByteArray_inj.mp equal.symm)

theorem Utf8.unique {bytes : Bytes} {text text' : String} (one : Utf8 bytes text)
    (other : Utf8 bytes text') : text = text' :=
  Option.some.inj ((textOf?_eq_some.mpr one).symm.trans (textOf?_eq_some.mpr other))

theorem textOf?_eq_none {bytes : Bytes} : textOf? bytes = none ↔ ∀ text, ¬ Utf8 bytes text := by
  simp only [← textOf?_eq_some, Option.eq_none_iff_forall_ne_some, ne_eq]

section Loading

variable {wording? : Option (String → String)} {files : Files} {options : Options}
  {arguments : List String}

def table (files : Files) (options : Options) : Except Failure Table :=
  Id.run (loadTable (fun path => pure (files path)) options)

def load (files : Files) (options : Options) : Except Failure Program :=
  Id.run (loadProgram (fun path => pure (files path)) options)

theorem table_eq (files : Files) (options : Options) : table files options =
    match options.catalog? with
    | none => .ok (.anonymous options.syscalls.toNat)
    | some path =>
      match files path with
      | .error error => .error (.readCatalog path error)
      | .ok bytes =>
        match textOf? bytes with
        | none => .error (.catalogNotText path)
        | some text =>
          match Table.ofText text with
          | .error error => .error (.parseCatalog path text error)
          | .ok table => .ok table := rfl

theorem load_eq (files : Files) (options : Options) : load files options =
    match table files options with
    | .error failure => .error failure
    | .ok table =>
      match files options.program with
      | .error error => .error (.readProgram options.program error)
      | .ok bytes =>
        match decode table.catalog options.limits bytes with
        | .error error => .error (.decodeProgram options.program error)
        | .ok program => .ok program := rfl

theorem runOn_eq (parsed : Options.parse arguments = .ok options) :
    runOn wording? files arguments = match load files options with
      | .error failure => { code := 1, out := "", err := failure.message wording? }
      | .ok program => { code := 0, out := printed options program, err := "" } := by
  unfold runOn run
  rw [parsed]
  rfl

theorem table_cases (files : Files) (options : Options) :
    (∃ found, table files options = .ok found ∧ Catalogued files options found) ∨
      ∃ failure, table files options = .error failure ∧ Uncatalogued files options failure := by
  rw [table_eq]
  cases given : options.catalog? with
  | none => exact .inl ⟨_, rfl, .anonymous given⟩
  | some path =>
    cases read : files path with
    | error error => exact .inr ⟨_, by simp only [read], .unread given read⟩
    | ok bytes =>
      cases legible : textOf? bytes with
      | none =>
        exact .inr ⟨_, by simp only [read, legible],
          .illegible given read (textOf?_eq_none.mp legible)⟩
      | some text =>
        have utf8 := textOf?_eq_some.mp legible
        cases parsed : Table.ofText text with
        | error error =>
          exact .inr ⟨_, by simp only [read, legible, parsed], .unparsed given read utf8 parsed⟩
        | ok found =>
          exact .inl ⟨found, by simp only [read, legible, parsed], .named given read utf8 parsed⟩

theorem load_cases (files : Files) (options : Options) :
    (∃ program, load files options = .ok program ∧ Yields files options program) ∨
      ∃ failure, load files options = .error failure ∧ Refuses files options failure := by
  rw [load_eq]
  rcases table_cases files options with ⟨found, built, catalogued⟩ | ⟨failure, failed, cause⟩
  · rw [built]
    cases read : files options.program with
    | error error => exact .inr ⟨_, rfl, .unread catalogued read⟩
    | ok bytes =>
      cases decoded : decode found.catalog options.limits bytes with
      | error error =>
        exact .inr ⟨_, by simp only [decoded], .undecoded catalogued read decoded⟩
      | ok program =>
        exact .inl ⟨program, by simp only [decoded], found, bytes, catalogued, read, decoded⟩
  · rw [failed]
    exact .inr ⟨failure, rfl, .uncatalogued cause⟩

theorem Catalogued.table_eq_ok {found : Table} (catalogued : Catalogued files options found) :
    table files options = .ok found := by
  rw [table_eq]
  cases catalogued with
  | anonymous bare => simp only [bare]
  | named given read legible parsed =>
    simp only [given, read, textOf?_eq_some.mpr legible, parsed]

theorem Yields.load_eq_ok {program : Program} (yields : Yields files options program) :
    load files options = .ok program := by
  rcases yields with ⟨found, bytes, catalogued, read, decoded⟩
  rw [load_eq, catalogued.table_eq_ok]
  simp only [read, Options.limits, decoded]

theorem Catalogued.readable {found : Table} (catalogued : Catalogued files options found) :
    Stage.readCatalog.Passes files options := by
  intro path given
  cases catalogued with
  | anonymous bare => simp only [bare, reduceCtorEq] at given
  | named given' read legible =>
    cases given.symm.trans given'
    exact ⟨_, _, read, legible⟩

theorem Uncatalogued.failsFirst {failure : Failure} (cause : Uncatalogued files options failure) :
    failure.stage.FailsFirst files options := by
  cases cause with
  | @unread path error given refused =>
    refine ⟨?_, List.forall_mem_nil _⟩
    intro passes
    rcases passes path given with ⟨bytes, text, read, _⟩
    cases refused.symm.trans read
  | @illegible path bytes given read refused =>
    refine ⟨?_, List.forall_mem_nil _⟩
    intro passes
    rcases passes path given with ⟨bytes', text, read', legible⟩
    cases read.symm.trans read'
    exact refused text legible
  | @unparsed path bytes text error given read legible refused =>
    refine ⟨?_, List.forall_mem_singleton.mpr ?_⟩
    · rintro ⟨found, bare | ⟨given', read', legible', parsed⟩⟩
      · cases given.symm.trans bare
      · cases given.symm.trans given'
        cases read.symm.trans read'
        cases legible.unique legible'
        cases refused.symm.trans parsed
    · intro path' given'
      cases given.symm.trans given'
      exact ⟨bytes, text, read, legible⟩

theorem Refuses.failsFirst {failure : Failure} (refuses : Refuses files options failure) :
    failure.stage.FailsFirst files options := by
  cases refuses with
  | uncatalogued cause => exact cause.failsFirst
  | unread catalogued refused =>
    constructor
    · rintro ⟨bytes, read⟩
      cases refused.symm.trans read
    · exact List.forall_mem_cons.mpr
        ⟨catalogued.readable, List.forall_mem_singleton.mpr ⟨_, catalogued⟩⟩
  | undecoded catalogued read refused =>
    constructor
    · rintro ⟨program, found, bytes, catalogued', read', decoded⟩
      cases catalogued.table_eq_ok.symm.trans catalogued'.table_eq_ok
      cases read.symm.trans read'
      cases refused.symm.trans decoded
    · exact List.forall_mem_cons.mpr ⟨catalogued.readable, List.forall_mem_cons.mpr
        ⟨⟨_, catalogued⟩, List.forall_mem_singleton.mpr ⟨_, read⟩⟩⟩

theorem Refuses.names {failure : Failure} (refuses : Refuses files options failure) :
    failure.stage.Names options (failure.message wording?) := by
  have context : failure.context =
      failure.stage.label ++ " " ++ failure.stage.path options := by
    cases refuses with
    | uncatalogued cause =>
      cases cause with
      | unread given | illegible given | unparsed given =>
        change _ = _ ++ options.catalog?.getD ""
        rw [given]
        rfl
    | unread | undecoded => rfl
  refine ⟨failure.cause wording?, ?_⟩
  apply String.toList_inj.mp
  rw [Failure.message, context]
  simp only [String.toList_append, List.append_assoc]

-- A fault in JSON is worded twice, as a reason of the failure and as the reason of that reason.
example : (Failure.parseCatalog "k" "[" (.json .ended)).message
      (some fun _ => "EOF while parsing a list at line 1 column 1") =
    "Error: parse catalog k\n\nCaused by:\n    0: invalid catalog json: " ++
      "EOF while parsing a list at line 1 column 1\n    1: " ++
      "EOF while parsing a list at line 1 column 1\n" := by decide +kernel

theorem Stage.Names.take_eq {err : String} {stage : Stage} (names : stage.Names options err) :
    err.toList.take 13 = ("Error: " ++ stage.label).toList.take 13 := by
  rcases names with ⟨cause, rfl⟩
  have long : 13 ≤ ("Error: " ++ stage.label).toList.length := by cases stage <;> decide
  rw [String.toList_append, List.take_append_of_le_length long]

theorem Stage.Names.unique {err : String} {first second : Stage}
    (one : first.Names options err) (other : second.Names options err) : first = second := by
  have same := one.take_eq.symm.trans other.take_eq
  revert same
  cases first <;> cases second <;> decide

theorem Yields.passes {program : Program} (yields : Yields files options program) (stage : Stage) :
    stage.Passes files options := by
  rcases yields with ⟨found, bytes, catalogued, read, decoded⟩
  cases stage with
  | readCatalog => exact catalogued.readable
  | parseCatalog => exact ⟨found, catalogued⟩
  | readProgram => exact ⟨bytes, read⟩
  | decodeProgram => exact ⟨program, found, bytes, catalogued, read, decoded⟩

theorem Stage.FailsFirst.unique {first second : Stage} (one : first.FailsFirst files options)
    (other : second.FailsFirst files options) : first = second := by
  apply Classical.byContradiction
  intro different
  have order : first ∈ second.earlier ∨ second ∈ first.earlier := by
    revert different
    cases first <;> cases second <;> decide
  rcases order with before | before
  · exact one.1 (other.2 first before)
  · exact other.1 (one.2 second before)

theorem load_json (files : Files) (options : Options) (json : Bool) :
    load files { options with json } = load files options := rfl

theorem Catalogued.of_same {files' : Files} {path : String} {found : Table}
    (catalogued : Catalogued files options found)
    (same : ∀ catalog, options.catalog? = some catalog → files' catalog = files catalog) :
    Catalogued files' { options with program := path } found := by
  cases catalogued with
  | anonymous bare => exact .anonymous bare
  | named given read legible parsed =>
    exact .named given ((same _ given).trans read) legible parsed

theorem Yields.canonical {program : Program} {files' : Files} {path : String}
    (yields : Yields files options program)
    (same : ∀ catalog, options.catalog? = some catalog → files' catalog = files catalog)
    (canonical : files' path = .ok program.encode) :
    Yields files' { options with program := path } program := by
  rcases yields with ⟨found, bytes, catalogued, _, decoded⟩
  refine ⟨found, program.encode, catalogued.of_same same, canonical, ?_⟩
  apply decode_encode (wellFormed_of_decode decoded)
  intro data member
  exact short_of_decode decoded member

end Loading

section Reports

variable {wording? : Option (String → String)} {files : Files} {options : Options}
  {arguments : List String}

theorem runOn_of_yields {program : Program} (parsed : Options.parse arguments = .ok options)
    (yields : Yields files options program) :
    runOn wording? files arguments = { code := 0, out := printed options program, err := "" } := by
  rw [runOn_eq parsed, yields.load_eq_ok]

theorem runOn_of_not_yields (parsed : Options.parse arguments = .ok options)
    (none : ¬ ∃ program, Yields files options program) :
    ∃ failure, Refuses files options failure ∧
      runOn wording? files arguments =
        { code := 1, out := "", err := failure.message wording? } := by
  rcases load_cases files options with ⟨program, _, yields⟩ | ⟨failure, failed, refuses⟩
  · exact absurd ⟨program, yields⟩ none
  · refine ⟨failure, refuses, ?_⟩
    rw [runOn_eq parsed, failed]

theorem runOn_insert_json {front back : List String} {options' : Options}
    (parsed : Options.parse (front ++ back) = .ok options)
    (parsed' : Options.parse (front ++ "--json" :: back) = .ok options') :
    (runOn wording? files (front ++ "--json" :: back)).code =
        (runOn wording? files (front ++ back)).code ∧
      (runOn wording? files (front ++ "--json" :: back)).err =
        (runOn wording? files (front ++ back)).err := by
  rw [Options.parse_insert_json parsed parsed'] at parsed'
  rw [runOn_eq parsed, runOn_eq parsed', load_json]
  cases load files options with
  | error failure => exact ⟨rfl, rfl⟩
  | ok program => exact ⟨rfl, rfl⟩

end Reports

/-- The command line is all or nothing. Its options are what the arguments say. It succeeds exactly
if they lead to a program, and prints that program alone. Otherwise it prints nothing and names the
first stage that fails, however the reader of JSON words a fault. The flag for JSON changes neither
the code nor the error, and the canonical stream of the program in place of its file changes
nothing. Memory is assumed to hold a table of placeholders of any size. -/
theorem run_all_or_nothing (wording? : Option (String → String)) (files : Files)
    (arguments : List String) (options : Options)
    (parsed : Options.parse arguments = .ok options) :
    (∃ items, Says arguments items ∧ Asks items options) ∧
    ((runOn wording? files arguments).code = 0 ↔ ∃ program, Yields files options program) ∧
    (∀ program, Yields files options program →
      (runOn wording? files arguments).err = "" ∧
      (runOn wording? files arguments).out =
        if options.json then program.json.pretty ++ "\n" else program.text) ∧
    ((¬ ∃ program, Yields files options program) →
      (runOn wording? files arguments).code = 1 ∧ (runOn wording? files arguments).out = "" ∧
      ∃ stage : Stage, stage.FailsFirst files options ∧
        ∀ other : Stage, other.Names options (runOn wording? files arguments).err ↔ other = stage) ∧
    (∀ front back options', arguments = front ++ back →
      Options.parse (front ++ "--json" :: back) = .ok options' →
      (runOn wording? files (front ++ "--json" :: back)).code =
        (runOn wording? files arguments).code ∧
      (runOn wording? files (front ++ "--json" :: back)).err =
        (runOn wording? files arguments).err) ∧
    (∀ program files' arguments' path, Yields files options program →
      Options.parse arguments' = .ok { options with program := path } →
      (∀ catalog, options.catalog? = some catalog → files' catalog = files catalog) →
      files' path = .ok program.encode →
      runOn wording? files' arguments' = runOn wording? files arguments) := by
  refine ⟨Options.parse_eq_ok_iff.mp parsed, ⟨?_, ?_⟩, ?_, ?_, ?_, ?_⟩
  · intro success
    apply Classical.byContradiction
    intro none
    rcases runOn_of_not_yields parsed none with ⟨failure, _, report⟩
    rw [report] at success
    cases success
  · rintro ⟨program, yields⟩
    rw [runOn_of_yields parsed yields]
  · intro program yields
    rw [runOn_of_yields parsed yields]
    exact ⟨rfl, rfl⟩
  · intro none
    rcases runOn_of_not_yields parsed none with ⟨failure, refuses, report⟩
    rw [report]
    refine ⟨rfl, rfl, failure.stage, refuses.failsFirst, ?_⟩
    intro other
    constructor
    · intro names
      exact names.unique refuses.names
    · rintro rfl
      exact refuses.names
  · rintro front back options' rfl parsed'
    exact runOn_insert_json parsed parsed'
  · intro program files' arguments' path yields parsed' same canonical
    rw [runOn_of_yields parsed yields,
      runOn_of_yields parsed' (yields.canonical same canonical)]
    rfl

def placeholderStream : Bytes := encodeWords [0, noResult, 0, stopWord] ++ [9]

def placeholderProgram : Program where
  calls := [{ syscall := ⟨0, 0, "syscall#0", "syscall#0"⟩, index := noResult, args := [],
              copyin := [], copyout := [] }]
  vars := []

def soleFile (name : String) (contents : Bytes) : Files := fun path =>
  if path = name then .ok contents else .error .notFound

def accentStream : Bytes := encodeWords [0, noResult, 1, 1, 8, 0, 0, 0, 7, stopWord] ++ [9]

def accentFiles : Files := fun path =>
  if path = "p" then .ok accentStream
  else if path = "k" then .ok [0x5b, 0x22, 0xc3, 0xa9, 0x22, 0x5d]
  else .error .notFound

def accentProgram : Program where
  calls := [{ syscall := ⟨0, 0, "é", "é"⟩, index := noResult,
              args := [.result (.ofLayout 8 0 0 0 7)], copyin := [], copyout := [] }]
  vars := [7]

theorem catalogued_accent {options : Options} (given : options.catalog? = some "k") :
    Catalogued accentFiles options ⟨#[⟨0, 0, "é", "é"⟩]⟩ := by
  have legible : Utf8 [0x5b, 0x22, 0xc3, 0xa9, 0x22, 0x5d] "[\"é\"]" := by
    unfold Utf8
    decide +kernel
  have built : (Table.ofText "[\"é\"]").toOption = some ⟨#[⟨0, 0, "é", "é"⟩]⟩ := by decide +kernel
  cases parsed : Table.ofText "[\"é\"]" with
  | error error =>
    rw [parsed] at built
    cases built
  | ok table =>
    rw [parsed] at built
    cases built
    exact .named given rfl legible parsed

/-- The stream as a text and with the flag for JSON, its canonical stream in another file, and a run
that takes the stream for a catalog and fails there, although the program is missing too. Then a run
with a catalog and both bounds, as tight as they can be, and two runs with a bound below. -/
theorem run_all_or_nothing_samples :
    (Options.parse ["p", "--syscalls", "1"] = .ok ⟨"p", none, 1, false, 2097152, 65536⟩ ∧
      (runOn none (soleFile "p" placeholderStream) ["p", "--syscalls", "1"]).code = 0 ∧
      (runOn none (soleFile "p" placeholderStream) ["p", "--syscalls", "1"]).err = "" ∧
      (runOn none (soleFile "p" placeholderStream) ["p", "--syscalls", "1"]).out =
        placeholderProgram.text) ∧
    (Options.parse ["p", "--json", "--syscalls", "1"] =
        .ok ⟨"p", none, 1, true, 2097152, 65536⟩ ∧
      (runOn none (soleFile "p" placeholderStream) ["p", "--json", "--syscalls", "1"]).code = 0) ∧
    (placeholderProgram.encode ≠ placeholderStream ∧
      runOn none (soleFile "c" placeholderProgram.encode) ["c", "--syscalls", "1"] =
        runOn none (soleFile "p" placeholderStream) ["p", "--syscalls", "1"]) ∧
    (Options.parse ["q", "--catalog", "p"] = .ok ⟨"q", some "p", 4096, false, 2097152, 65536⟩ ∧
      (runOn none (soleFile "p" placeholderStream) ["q", "--catalog", "p"]).code = 1 ∧
      (runOn none (soleFile "p" placeholderStream) ["q", "--catalog", "p"]).out = "" ∧
      Stage.readCatalog.Names ⟨"q", some "p", 4096, false, 2097152, 65536⟩
        (runOn none (soleFile "p" placeholderStream) ["q", "--catalog", "p"]).err) ∧
    (∃ items, Says ["p", "--max-bytes", "81", "--max-vars=1", "--catalog", "k"] items ∧
      Asks items ⟨"p", some "k", 4096, false, 81, 1⟩ ∧
      (runOn none accentFiles ["p", "--max-bytes", "81", "--max-vars=1", "--catalog", "k"]).code =
        0 ∧
      (runOn none accentFiles ["p", "--max-bytes", "81", "--max-vars=1", "--catalog", "k"]).out =
        accentProgram.text) ∧
    Stage.decodeProgram.Names ⟨"p", some "k", 4096, false, 80, 65536⟩
      (runOn none accentFiles ["p", "--max-bytes=80", "--catalog=k"]).err ∧
    Stage.decodeProgram.Names ⟨"p", some "k", 4096, false, 2097152, 0⟩
      (runOn none accentFiles ["p", "--catalog=k", "--max-vars", "+0"]).err := by
  have parsed : Options.parse ["p", "--syscalls", "1"] =
      .ok ⟨"p", none, 1, false, 2097152, 65536⟩ := rfl
  have flagged : Options.parse ["p", "--json", "--syscalls", "1"] =
      .ok ⟨"p", none, 1, true, 2097152, 65536⟩ := rfl
  have renamed : Options.parse ["c", "--syscalls", "1"] =
      .ok ⟨"c", none, 1, false, 2097152, 65536⟩ := rfl
  have mistaken : Options.parse ["q", "--catalog", "p"] =
      .ok ⟨"q", some "p", 4096, false, 2097152, 65536⟩ := rfl
  have bounded : Options.parse ["p", "--max-bytes", "81", "--max-vars=1", "--catalog", "k"] =
      .ok ⟨"p", some "k", 4096, false, 81, 1⟩ := rfl
  have short : Options.parse ["p", "--max-bytes=80", "--catalog=k"] =
      .ok ⟨"p", some "k", 4096, false, 80, 65536⟩ := rfl
  have narrow : Options.parse ["p", "--catalog=k", "--max-vars", "+0"] =
      .ok ⟨"p", some "k", 4096, false, 2097152, 0⟩ := rfl
  have decoded : decode (Table.anonymous 1).catalog {} placeholderStream =
      .ok placeholderProgram := by
    decide +kernel
  have yields : Yields (soleFile "p" placeholderStream) ⟨"p", none, 1, false, 2097152, 65536⟩
      placeholderProgram := ⟨_, _, .anonymous rfl, rfl, decoded⟩
  obtain ⟨_, success, printed, _, json, canonical⟩ :=
    run_all_or_nothing none (soleFile "p" placeholderStream) _ _ parsed
  have zero := success.mpr ⟨_, yields⟩
  have fails {files : Files} {arguments : List String} {options : Options} {failure : Failure}
      (parsed : Options.parse arguments = .ok options) (refuses : Refuses files options failure) :
      (runOn none files arguments).code = 1 ∧ (runOn none files arguments).out = "" ∧
        failure.stage.Names options (runOn none files arguments).err := by
    obtain ⟨_, _, _, failed, _⟩ := run_all_or_nothing none files arguments options parsed
    have first := refuses.failsFirst
    rcases failed fun ⟨_, yields⟩ => first.1 (yields.passes _) with
      ⟨one, empty, stage, fails, names⟩
    exact ⟨one, empty, (names _).mpr (first.unique fails)⟩
  refine ⟨⟨parsed, zero, printed _ yields⟩, ⟨flagged, ?_⟩, ⟨by decide, ?_⟩, ⟨mistaken, ?_⟩, ?_, ?_,
    ?_⟩
  · rw [← zero]
    exact (json ["p"] ["--syscalls", "1"] _ rfl flagged).1
  · exact canonical _ _ _ "c" yields renamed nofun rfl
  · have illegible : Refuses (soleFile "p" placeholderStream)
        ⟨"q", some "p", 4096, false, 2097152, 65536⟩ (.catalogNotText "p") :=
      .uncatalogued (.illegible rfl rfl (textOf?_eq_none.mp rfl))
    obtain ⟨one, empty, names⟩ := fails mistaken illegible
    exact ⟨one, empty, names⟩
  · obtain ⟨⟨items, said, asks⟩, success, printed, _⟩ :=
      run_all_or_nothing none accentFiles _ _ bounded
    have accepted : Yields accentFiles ⟨"p", some "k", 4096, false, 81, 1⟩ accentProgram :=
      ⟨_, _, catalogued_accent rfl, rfl, by decide +kernel⟩
    exact ⟨items, said, asks, success.mpr ⟨_, accepted⟩, (printed _ accepted).2⟩
  · have refused : decode (Table.mk #[⟨0, 0, "é", "é"⟩]).catalog ⟨80, 65536⟩ accentStream =
        .error (.programTooLarge 81 80) := by decide +kernel
    exact (fails short (.undecoded (catalogued_accent rfl) rfl refused)).2.2
  · have refused : decode (Table.mk #[⟨0, 0, "é", "é"⟩]).catalog ⟨2097152, 0⟩ accentStream =
        .error (.varIndexTooLarge 0 0) := by decide +kernel
    exact (fails narrow (.undecoded (catalogued_accent rfl) rfl refused)).2.2

end SyscallStream.Cli
