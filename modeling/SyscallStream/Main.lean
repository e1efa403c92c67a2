import SyscallStream.Cli.Run

/-!
The command line program.
-/

namespace SyscallStream.Cli

def FileError.ofIO : IO.Error → FileError
  | .noFileOrDirectory .. => .notFound
  | .inappropriateType _ 21 _ => .isAFolder
  | .inappropriateType .. => .notAFolder
  | error => .other (toString error)

def readFile (path : String) : IO (Except FileError Bytes) := do
  try
    return .ok (← IO.FS.readBinFile path).toList
  catch error =>
    return .error (FileError.ofIO error)

end SyscallStream.Cli

def main (arguments : List String) : IO UInt32 := do
  let report ← SyscallStream.Cli.run SyscallStream.Cli.readFile none arguments
  IO.print report.out
  IO.eprint report.err
  return report.code
