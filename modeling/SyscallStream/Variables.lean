import SyscallStream.Error

/-!
The variables of a program. A result argument gives a variable its first value; a call result or a
copyout only needs the variable to exist. Both count towards the required size.
-/

namespace SyscallStream

structure Variables where
  /-- The values given so far; slots in between hold zero. -/
  slots : Array UInt64
  /-- One more than the highest index seen. -/
  required : UInt64
  /-- Indices from here on are refused. -/
  limit : UInt64
  deriving DecidableEq, Repr

namespace Variables

def empty (limit : UInt64) : Variables := ⟨#[], 0, limit⟩

def admits (vars : Variables) (index : UInt64) : Bool := decide (index < vars.limit)

def refusal (vars : Variables) (index : UInt64) : DecodeError :=
  .varIndexTooLarge index vars.limit

/-- Sets a slot, adding zeros up to it where the table is too short. -/
def setSlot (slots : Array UInt64) (slot : Nat) (value : UInt64) : Array UInt64 :=
  if slot < slots.size then slots.setIfInBounds slot value
  else (slots ++ Array.replicate (slot - slots.size) 0).push value

def mention (vars : Variables) (index : UInt64) : Variables :=
  { vars with required := max vars.required (index + 1) }

def put (vars : Variables) (index value : UInt64) : Variables :=
  { vars with
    slots := setSlot vars.slots index.toNat value
    required := max vars.required (index + 1) }

def assign (vars : Variables) (index value : UInt64) : Except DecodeError Variables :=
  if vars.admits index then .ok (vars.put index value) else .error (vars.refusal index)

def reference (vars : Variables) (index : UInt64) : Except DecodeError Variables :=
  if vars.admits index then .ok (vars.mention index) else .error (vars.refusal index)

def referenceAll (vars : Variables) (indices : List UInt64) : Except DecodeError Variables :=
  indices.foldlM reference vars

def close (vars : Variables) : Except DecodeError (List UInt64) :=
  if vars.slots.size = vars.required.toNat then .ok vars.slots.toList
  else .error (.varsMismatch vars.slots.size vars.required)

theorem getElem?_setSlot (slots : Array UInt64) (slot i : Nat) (value : UInt64) :
    (setSlot slots slot value)[i]? =
      if i = slot then some value
      else if i < slots.size then slots[i]?
      else if i < slot then some 0 else none := by
  unfold setSlot
  split
  · rename_i inside
    rw [Array.getElem?_setIfInBounds]
    grind
  · rename_i outside
    rw [Array.getElem?_push, Array.getElem?_append]
    grind

end Variables

end SyscallStream
