import SyscallStream.Catalog.Text
import SyscallStream.Cli.Folder
import SyscallStream.Cli.Options
import SyscallStream.Program.Json
import SyscallStream.Program.Text

/-!
What the command line does: it reads the catalog, then the program, and prints either the whole
program or the first failure.
-/

namespace SyscallStream.Cli

structure Report where
  code : UInt32
  out : String
  err : String
  deriving DecidableEq, Repr

inductive Failure where
  | readCatalog (path : String) (error : FileError)
  | catalogNotText (path : String)
  | parseCatalog (path text : String) (error : CatalogError)
  | readProgram (path : String) (error : FileError)
  | decodeProgram (path : String) (error : DecodeError)
  deriving DecidableEq, Repr

namespace Failure

def context : Failure → String
  | .readCatalog path _ | .catalogNotText path => "read catalog " ++ path
  | .parseCatalog path .. => "parse catalog " ++ path
  | .readProgram path _ => "read program " ++ path
  | .decodeProgram path _ => "decode program " ++ path

/-- The chain of reasons. `wording?` is how the reader of JSON words what is wrong with a text; for
`none` a chain with such a wording stops in front of it. -/
def cause (wording? : Option (String → String)) : Failure → String
  | .readCatalog _ error | .readProgram _ error => error.message ++ "\n"
  | .catalogNotText _ => "stream did not contain valid UTF-8\n"
  | .parseCatalog _ text (.json fault) =>
    let first := "0: " ++ (CatalogError.json fault).message
    match wording? with
    | none => first
    | some wording => first ++ wording text ++ "\n    1: " ++ wording text ++ "\n"
  | .parseCatalog _ _ error => error.message ++ "\n"
  | .decodeProgram _ error => error.message ++ "\n"

def message (wording? : Option (String → String)) (failure : Failure) : String :=
  "Error: " ++ failure.context ++ "\n\nCaused by:\n    " ++ failure.cause wording?

end Failure

def textOf? (bytes : Bytes) : Option String := String.fromUTF8? ⟨bytes.toArray⟩

def printed (options : Options) (program : Program) : String :=
  if options.json then program.json.pretty ++ "\n" else program.text

variable {m : Type → Type} [Monad m] (read : String → m (Except FileError Bytes))

/-- The table that the options ask for. Memory is taken to hold placeholders for any `syscalls`. -/
def loadTable (options : Options) : m (Except Failure Table) :=
  match options.catalog? with
  | none => return .ok (.anonymous options.syscalls.toNat)
  | some path => do
    match ← read path with
    | .error error => return .error (.readCatalog path error)
    | .ok bytes =>
      match textOf? bytes with
      | none => return .error (.catalogNotText path)
      | some text =>
        match Table.ofText text with
        | .error error => return .error (.parseCatalog path text error)
        | .ok table => return .ok table

def Options.limits (options : Options) : Limits where
  maxBytes := options.maxBytes
  maxVars := options.maxVars

def loadProgram (options : Options) : m (Except Failure Program) := do
  match ← loadTable read options with
  | .error failure => return .error failure
  | .ok table =>
    match ← read options.program with
    | .error error => return .error (.readProgram options.program error)
    | .ok bytes =>
      match decode table.catalog options.limits bytes with
      | .error error => return .error (.decodeProgram options.program error)
      | .ok program => return .ok program

/-- Runs a command line. Nothing is printed unless everything succeeds. -/
def run (wording? : Option (String → String)) (arguments : List String) : m Report :=
  match Options.parse arguments with
  | .error error => return { code := 2, out := "", err := error.message }
  | .ok options => do
    match ← loadProgram read options with
    | .error failure => return { code := 1, out := "", err := failure.message wording? }
    | .ok program => return { code := 0, out := printed options program, err := "" }

/-- Runs a command line on the files of a folder, without the wording of faults in JSON. -/
def runIn (folder : Folder) (arguments : List String) : Report :=
  Id.run (run (fun path => pure (folder.read path)) none arguments)

end SyscallStream.Cli
