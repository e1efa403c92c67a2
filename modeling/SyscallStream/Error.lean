import SyscallStream.Format

/-!
Why a stream is refused.
-/

namespace SyscallStream

inductive DecodeError where
  | overflow (offset needed remaining : Nat)
  | badSyscall (index : UInt64) (count : Nat)
  /-- The catalog's entry for a leading word carries another one. -/
  | idMismatch (index id : UInt64)
  | badCallArg (call arg : Nat) (kind : ArgKind)
  | badArgKind (word : UInt64)
  | unknownChecksum (word : UInt64)
  /-- A call result or a copyout needs a variable that no result argument reaches. -/
  | varsMismatch (populated : Nat) (required : UInt64)
  | programTooLarge (size : Nat) (limit : UInt64)
  | varIndexTooLarge (index limit : UInt64)
  /-- Copyins or copyouts that no call follows. -/
  | dangling (copyin copyout : Nat)
  deriving DecidableEq, Repr

def DecodeError.kind : DecodeError → String
  | .overflow .. => "overflow"
  | .badSyscall .. => "bad_syscall"
  | .idMismatch .. => "syscall_id_mismatch"
  | .badCallArg .. => "bad_call_arg"
  | .badArgKind _ => "bad_arg_type"
  | .unknownChecksum _ => "unknown_csum_kind"
  | .varsMismatch .. => "vars_mismatch"
  | .programTooLarge .. => "program_too_large"
  | .varIndexTooLarge .. => "var_index_too_large"
  | .dangling .. => "dangling_instructions"

def DecodeError.message : DecodeError → String
  | .overflow offset needed remaining =>
    s!"exec program overflow at offset {offset}: need {needed} bytes, {remaining} remain"
  | .badSyscall index count => s!"bad syscall {index} (catalog has {count} entries)"
  | .idMismatch index id => s!"catalog entry at position {index} has id {id}"
  | .badCallArg call arg kind =>
    s!"bad call arg #{arg} of call #{call}: {kind.name} arguments are only legal as copyin payloads"
  | .badArgKind word => s!"bad argument type {word}"
  | .unknownChecksum word => s!"unknown csum kind {word}"
  | .varsMismatch populated required => s!"mismatching number of vars: {populated}/{required}"
  | .programTooLarge size limit => s!"exec program is {size} bytes, limit is {limit}"
  | .varIndexTooLarge index limit => s!"variable index {index} exceeds limit {limit}"
  | .dangling copyin copyout =>
    s!"{copyin} copyin and {copyout} copyout instructions are not followed by any call"

end SyscallStream
