import SyscallStream.Word

/-!
Files by path, in a folder that is known completely.
-/

namespace SyscallStream.Cli

inductive FileError where
  | notFound
  | notAFolder
  | isAFolder
  | nameTooLong
  | other (message : String)
  deriving DecidableEq, Repr

def FileError.message : FileError → String
  | .notFound => "No such file or directory (os error 2)"
  | .notAFolder => "Not a directory (os error 20)"
  | .isAFolder => "Is a directory (os error 21)"
  | .nameTooLong => "File name too long (os error 36)"
  | .other message => message

abbrev Folder := List (String × Bytes)

inductive Place where
  | here
  /-- A folder further up, of which nothing else is known. -/
  | above
  | file (contents : Bytes)

def maxNameSize : Nat := 255

def Folder.follow (folder : Folder) (place : Place) (component : String) :
    Except FileError Place :=
  match place with
  | .file _ => .error .notAFolder
  | .here =>
    if component = "" || component = "." then .ok .here
    else if component = ".." then .ok .above
    else if maxNameSize < component.utf8ByteSize then .error .nameTooLong
    else
      match folder.find? (·.1 == component) with
      | some (_, contents) => .ok (.file contents)
      | none => .error .notFound
  | .above =>
    if component = "" || component = "." || component = ".." then .ok .above
    else if maxNameSize < component.utf8ByteSize then .error .nameTooLong
    else .error .notFound

def Folder.read (folder : Folder) (path : String) : Except FileError Bytes :=
  let start := if path.startsWith "/" then Place.above else .here
  match (path.splitOn "/").foldlM folder.follow start with
  | .error error => .error error
  | .ok (.file contents) => .ok contents
  | .ok _ => .error .isAFolder

end SyscallStream.Cli
