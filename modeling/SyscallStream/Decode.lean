import SyscallStream.Decode.Progress

/-!
Decoding a stream against a catalog, in one pass.
-/

namespace SyscallStream

structure Limits where
  /-- Longer streams are refused unread. -/
  maxBytes : UInt64 := 2097152
  /-- Variable indices from here on are refused. -/
  maxVars : UInt64 := 65536
  deriving DecidableEq, Repr

def Decoder.instructions (catalog : Catalog) (state : State) :
    EStateM.Result DecodeError State Unit :=
  match ran : Decoder.instruction catalog state with
  | .error error state => .error error state
  | .ok false state => .ok () state
  | .ok true next =>
    have := Nat.lt_of_lt_of_le (Nat.lt_add_of_pos_right (by decide))
      (Decoder.instruction_takes catalog _ _ _ ran)
    instructions catalog next
termination_by state.remaining

def State.finish (state : State) : Except DecodeError Program :=
  if state.pending.copyin.isEmpty && state.pending.copyout.isEmpty then
    match state.vars.close with
    | .error error => .error error
    | .ok vars => .ok { calls := state.calls.toList, vars }
  else .error (.dangling state.pending.copyin.size state.pending.copyout.size)

def State.initial (limits : Limits) (bytes : Bytes) : State where
  cursor := .ofBytes bytes
  vars := .empty limits.maxVars

structure Decoding where
  result : Except DecodeError Program
  log : List Event

def decodeWithLog (catalog : Catalog) (limits : Limits) (bytes : Bytes) : Decoding :=
  let size := bytes.length
  if limits.maxBytes.toNat < size then
    { result := .error (.programTooLarge size limits.maxBytes), log := [] }
  else
    match Decoder.instructions catalog (.initial limits bytes) with
    | .error error state =>
      { result := .error error
        log := (state.log.push (.rejected error (some state.cursor.offset) size)).toList }
    | .ok _ state =>
      match state.finish with
      | .error error =>
        { result := .error error, log := (state.log.push (.rejected error none size)).toList }
      | .ok program =>
        { result := .ok program
          log := (state.log.push (.decoded program.calls.length program.vars.length size)).toList }

def decode (catalog : Catalog) (limits : Limits) (bytes : Bytes) : Except DecodeError Program :=
  (decodeWithLog catalog limits bytes).result

end SyscallStream
