import SyscallStream.Catalog.Table
import SyscallStream.Json.ArrayReader

/-!
Tables from JSON: an array whose items are names, or objects with a `name` and possibly a
`call_name` and an `nr`. Other members are ignored.
-/

namespace SyscallStream

/-- The value of a member, if there is one. A second one is refused. -/
def Json.member? (key : String) (members : List (String × Json)) : Option (Option Json) :=
  match members.filter (·.1 == key) with
  | [] => some none
  | [member] => some (some member.2)
  | _ => none

namespace Description

def nameOf? : Option Json → Option String
  | some (.scalar (.string name)) => some name
  | _ => none

def callNameOf? : Option Json → Option (Option String)
  | none | some (.scalar .null) => some none
  | some (.scalar (.string name)) => some (some name)
  | _ => none

def nrOf? : Option Json → Option UInt64
  | none => some 0
  | some (.scalar (.number literal)) => literal.word?
  | _ => none

def ofJson? : Json → Option Description
  | .scalar (.string name) => some (.plain name)
  | .object members => do
    let name ← nameOf? (← Json.member? "name" members)
    let callName? ← callNameOf? (← Json.member? "call_name" members)
    let nr ← nrOf? (← Json.member? "nr" members)
    return .full name callName? nr
  | _ => none

end Description

def Table.ofText (text : String) : Except CatalogError Table :=
  match Json.readArray Description.ofJson? text with
  | .error fault => .error (.json fault)
  | .ok descriptions => Table.ofDescriptions descriptions

end SyscallStream
