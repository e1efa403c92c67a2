import SyscallStream.Catalog
import SyscallStream.Json
import SyscallStream.Numeral

/-!
Tables of syscalls: catalogs in which every entry carries its own position.
-/

namespace SyscallStream

inductive Description where
  | plain (name : String)
  | full (name : String) (callName? : Option String) (nr : UInt64)
  deriving DecidableEq, Repr

inductive CatalogError where
  | json (fault : Json.Fault)
  | emptyName (position : Nat)
  deriving DecidableEq, Repr

/-- What is wrong. Of faulty JSON neither the place nor a wording is told. -/
def CatalogError.message : CatalogError → String
  | .json _ => "invalid catalog json: "
  | .emptyName position => "catalog entry #" ++ decimal position ++ " has an empty name"

namespace Description

def name : Description → String
  | .plain name => name
  | .full name _ _ => name

def nr : Description → UInt64
  | .plain _ => 0
  | .full _ _ nr => nr

def baseName (name : String) : String := String.ofList (name.toList.takeWhile (· != '$'))

def callName : Description → String
  | .full _ (some callName) _ => callName
  | description => baseName description.name

def entry (position : Nat) (description : Description) : Syscall where
  id := UInt64.ofNat position
  nr := description.nr
  name := description.name
  callName := description.callName

end Description

structure Table where
  entries : Array Syscall
  deriving DecidableEq, Repr

namespace Table

def ofDescriptions (descriptions : List Description) : Except CatalogError Table :=
  match descriptions.findIdx? (·.name.isEmpty) with
  | some position => .error (.emptyName position)
  | none => .ok ⟨(descriptions.mapIdx Description.entry).toArray⟩

def placeholder (position : Nat) : Syscall where
  id := UInt64.ofNat position
  nr := UInt64.ofNat position
  name := "syscall#" ++ decimal position
  callName := "syscall#" ++ decimal position

def anonymous (size : Nat) : Table := ⟨(Array.range size).map placeholder⟩

def size (table : Table) : Nat := table.entries.size

def isEmpty (table : Table) : Bool := table.entries.isEmpty

def entry? (table : Table) (word : UInt64) : Option Syscall := table.entries[word.toNat]?

def find? (table : Table) (name : String) : Option Syscall := table.entries.find? (·.name == name)

def catalog (table : Table) : Catalog where
  size := table.size
  entry? := table.entry?

end Table

end SyscallStream
