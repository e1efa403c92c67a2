import SyscallStream.Decode.Arg
import SyscallStream.Event
import SyscallStream.Variables

/-!
The state of a decoding: where it stands in the stream, the variables, the call that is being
gathered, the finished calls and the log.

Copyins come before the leading word of their call and copyouts after it, so a call is finished only
when the next copyin, the next call or the end is seen.
-/

namespace SyscallStream

structure Pending where
  /-- Known once the call's leading word was read. -/
  syscall? : Option Syscall := none
  index : UInt64 := 0
  args : Array Arg := #[]
  copyin : Array Copyin := #[]
  copyout : Array Copyout := #[]
  deriving DecidableEq, Repr

def Pending.references (pending : Pending) : List UInt64 :=
  (if pending.index = noResult then [] else [pending.index]) ++
    pending.copyout.toList.map (·.index)

def Pending.toCall (pending : Pending) (syscall : Syscall) : Call where
  syscall := syscall
  index := pending.index
  args := pending.args.toList
  copyin := pending.copyin.toList
  copyout := pending.copyout.toList

structure State where
  cursor : Cursor
  vars : Variables
  pending : Pending := {}
  calls : Array Call := #[]
  log : Array Event := #[]

/-- A step of the decoding. The state survives a failure, since log and offset are reported. -/
abbrev Decoder := EStateM DecodeError State

namespace Decoder

def onCursor {α : Type} (reader : Reader α) : Decoder α := fun state =>
  match reader state.cursor with
  | .ok value cursor => .ok value { state with cursor }
  | .error error cursor => .error error { state with cursor }

def assign (index value : UInt64) : Decoder Unit := fun state =>
  if state.vars.admits index then
    .ok () { state with vars := state.vars.put index value }
  else .error (state.vars.refusal index) state

def start (syscall : Syscall) (index : UInt64) : Decoder Unit :=
  modify fun state =>
    { state with pending := { state.pending with syscall? := some syscall, index } }

def pushArg (arg : Arg) : Decoder Unit :=
  modify fun state =>
    { state with pending := { state.pending with args := state.pending.args.push arg } }

def pushCopyin (copyin : Copyin) : Decoder Unit :=
  modify fun state =>
    { state with pending := { state.pending with copyin := state.pending.copyin.push copyin } }

def pushCopyout (copyout : Copyout) : Decoder Unit :=
  modify fun state =>
    { state with pending := { state.pending with copyout := state.pending.copyout.push copyout } }

def commit : Decoder Unit := fun state =>
  match state.pending.syscall? with
  | none => .ok () state
  | some syscall =>
    match state.vars.referenceAll state.pending.references with
    | .error error => .error error state
    | .ok vars =>
      let call := state.pending.toCall syscall
      let event := Event.committed state.calls.size syscall.name call.args.length
        call.copyin.length call.copyout.length
      .ok () { state with
        vars
        pending := {}
        calls := state.calls.push call
        log := state.log.push event }

end Decoder

end SyscallStream
