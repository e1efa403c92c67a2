import SyscallStream.Decode

/-!
The command line's options. An option's value is the next argument or stands behind `=`; after `--`
every argument is a program.
-/

namespace SyscallStream.Cli

inductive Opt where
  | catalog
  | syscalls
  | json
  | maxBytes
  | maxVars
  deriving DecidableEq, Repr

namespace Opt

def flag : Opt → String
  | .catalog => "--catalog"
  | .syscalls => "--syscalls"
  | .json => "--json"
  | .maxBytes => "--max-bytes"
  | .maxVars => "--max-vars"

def label : Opt → String
  | .catalog => "--catalog <PATH>"
  | .syscalls => "--syscalls <N>"
  | .json => "--json"
  | .maxBytes => "--max-bytes <BYTES>"
  | .maxVars => "--max-vars <N>"

def ofFlag? (text : String) : Option Opt :=
  [Opt.catalog, .syscalls, .json, .maxBytes, .maxVars].find? (·.flag == text)

end Opt

inductive SizeFault where
  | empty
  | invalidDigit
  | tooLarge
  | zero
  deriving DecidableEq, Repr

def SizeFault.message : SizeFault → String
  | .empty => "cannot parse integer from empty string"
  | .invalidDigit => "invalid digit found in string"
  | .tooLarge => "number too large to fit in target type"
  | .zero => "must be non-zero"

def appendSize (value : Nat) : List Char → Except SizeFault UInt64
  | [] => .ok (UInt64.ofNat value)
  | c :: rest =>
    if c.isDigit then
      let next := 10 * value + (c.toNat - '0'.toNat)
      if next < UInt64.size then appendSize next rest else .error .tooLarge
    else .error .invalidDigit

def parseSize (text : String) : Except SizeFault UInt64 :=
  match text.toList with
  | [] => .error .empty
  | ['+'] => .error .invalidDigit
  | '+' :: digits => appendSize 0 digits
  | digits => appendSize 0 digits

def parsePositive (text : String) : Except SizeFault UInt64 := do
  let size ← parseSize text
  if size = 0 then throw .zero else return size

inductive UsageError where
  | programMissing
  | unexpected (argument : String)
  | valueMissing (label : String)
  | invalidValue (value : String) (opt : Opt) (fault : SizeFault)
  | repeated (opt : Opt)
  | unexpectedValue (value : String) (opt : Opt)
  | conflict (first second : Opt)
  deriving DecidableEq, Repr

def UsageError.message : UsageError → String
  | .programMissing => "error: the following required arguments were not provided:"
  | .unexpected argument => s!"error: unexpected argument '{argument}' found"
  | .valueMissing label => s!"error: a value is required for '{label}' but none was supplied"
  | .invalidValue value opt fault =>
    s!"error: invalid value '{value}' for '{opt.label}': {fault.message}"
  | .repeated opt => s!"error: the argument '{opt.label}' cannot be used multiple times"
  | .unexpectedValue value opt =>
    s!"error: unexpected value '{value}' for '{opt.label}' found; no more were expected"
  | .conflict first second =>
    s!"error: the argument '{first.label}' cannot be used with '{second.label}'"

structure Options where
  program : String
  catalog? : Option String
  /-- Size of the placeholder table that is used without a catalog. -/
  syscalls : UInt64
  json : Bool
  maxBytes : UInt64
  maxVars : UInt64
  deriving DecidableEq, Repr

structure Draft where
  program? : Option String := none
  catalog? : Option String := none
  syscalls : UInt64 := 4096
  json : Bool := false
  maxBytes : UInt64 := Limits.maxBytes {}
  maxVars : UInt64 := Limits.maxVars {}
  given : List Opt := []
  deriving DecidableEq, Repr

namespace Draft

def program (draft : Draft) (argument : String) : Except UsageError Draft :=
  if draft.program?.isSome then .error (.unexpected argument)
  else if argument.isEmpty then .error (.valueMissing "<PROGRAM>")
  else .ok { draft with program? := some argument }

def note (draft : Draft) (opt : Opt) : Except UsageError Draft :=
  if opt ∈ draft.given then .error (.repeated opt)
  else .ok { draft with given := draft.given ++ [opt] }

def size (opt : Opt) (value : String) (parse : String → Except SizeFault UInt64) :
    Except UsageError UInt64 :=
  match parse value with
  | .ok n => .ok n
  | .error fault => .error (.invalidValue value opt fault)

def set (draft : Draft) (opt : Opt) (value : String) : Except UsageError Draft := do
  let draft ← draft.note opt
  match opt with
  | .catalog =>
    if value.isEmpty then throw (.valueMissing opt.label)
    else return { draft with catalog? := some value }
  | .syscalls => return { draft with syscalls := ← size opt value parseSize }
  | .maxBytes => return { draft with maxBytes := ← size opt value parsePositive }
  | .maxVars => return { draft with maxVars := ← size opt value parseSize }
  | .json => throw (.unexpectedValue value opt)

def options (draft : Draft) : Except UsageError Options :=
  match draft.given.filter fun opt => opt == .catalog || opt == .syscalls with
  | first :: second :: _ => .error (.conflict first second)
  | _ =>
    match draft.program? with
    | none => .error .programMissing
    | some program =>
      .ok { program, catalog? := draft.catalog?, syscalls := draft.syscalls, json := draft.json
            maxBytes := draft.maxBytes, maxVars := draft.maxVars }

end Draft

/-- How an argument in front of `--` is understood. -/
inductive Argument where
  /-- `--`: only programs follow. -/
  | separator
  | option (opt : Opt) (value? : Option String)
  | unknown (name : String)
  | plain (text : String)
  deriving DecidableEq, Repr

def Argument.ofText (text : String) : Argument :=
  match text.toList with
  | ['-', '-'] => .separator
  | '-' :: '-' :: rest =>
    let name := "--" ++ String.ofList (rest.takeWhile (· != '='))
    match Opt.ofFlag? name with
    | none => .unknown name
    | some opt =>
      match rest.dropWhile (· != '=') with
      | [] => .option opt none
      | _ :: value => .option opt (some (String.ofList value))
  | '-' :: c :: _ => .unknown (String.ofList ['-', c])
  | _ => .plain text

def Draft.arguments (draft : Draft) : List String → Except UsageError Draft
  | [] => .ok draft
  | text :: rest =>
    match Argument.ofText text with
    | .separator => rest.foldlM Draft.program draft
    | .unknown name => .error (.unexpected name)
    | .plain text => do (← draft.program text).arguments rest
    | .option .json (some value) => .error (.unexpectedValue value .json)
    | .option .json none => do
      let draft ← draft.note .json
      { draft with json := true }.arguments rest
    | .option opt (some value) => do (← draft.set opt value).arguments rest
    | .option opt none =>
      match rest with
      | [] => .error (.valueMissing opt.label)
      | value :: rest =>
        match Argument.ofText value with
        | .plain value => do (← draft.set opt value).arguments rest
        | .unknown name => .error (.unexpected name)
        | .separator | .option .. => .error (.valueMissing opt.label)

def Options.parse (arguments : List String) : Except UsageError Options := do
  (← Draft.arguments {} arguments).options

end SyscallStream.Cli
