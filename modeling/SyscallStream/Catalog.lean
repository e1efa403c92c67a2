/-!
Catalogs of syscalls: what a leading word may call.
-/

namespace SyscallStream

structure Syscall where
  id : UInt64
  nr : UInt64
  name : String
  callName : String
  deriving BEq, ReflBEq, LawfulBEq, DecidableEq, Repr

/-- A catalog as the decoder sees it. Nothing ties `size` or an entry's `id` to the lookup. -/
structure Catalog where
  size : Nat
  entry? : UInt64 → Option Syscall

def Catalog.Resolves (catalog : Catalog) (word : UInt64) (syscall : Syscall) : Prop :=
  catalog.entry? word = some syscall ∧ syscall.id = word

end SyscallStream
