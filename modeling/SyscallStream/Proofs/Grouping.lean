import SyscallStream.Proofs.Assembly

/-! Which call an instruction belongs to, told from the instructions before it and without a state.

A copyin belongs to the next call. A copyout belongs to the call before it; if a copyin stands
between them, or no call stands before it, it belongs to the next call as well. -/

namespace SyscallStream

namespace Instruction

def isCall : Instruction → Bool
  | .call .. => true
  | _ => false

def isCopyout : Instruction → Bool
  | .copyout _ => true
  | _ => false

def copyin? : Instruction → Option Copyin
  | .copyin input => some input
  | _ => none

def copyout? : Instruction → Option Copyout
  | .copyout output => some output
  | _ => none

def head? : Instruction → Option (UInt64 × UInt64 × List Arg)
  | .call word index args => some (word, index, args)
  | _ => none

end Instruction

def callOpen (before : List Instruction) : Bool :=
  (before.filter (!·.isCopyout)).getLast?.any Instruction.isCall

/-- The position of the call that an instruction belongs to, among all calls of the stream. -/
def Instruction.owner (before : List Instruction) : Instruction → Nat
  | .copyout _ =>
    if callOpen before then before.countP isCall - 1 else before.countP isCall
  | _ => before.countP isCall

def owned (instructions : List Instruction) : List (Nat × Instruction) :=
  instructions.mapIdx fun position instruction =>
    (instruction.owner (instructions.take position), instruction)

/-- What `pick` selects of the instructions that belong to the call at a position, in order. -/
def belongings {β : Type} (pick : Instruction → Option β) (instructions : List Instruction)
    (position : Nat) : List β :=
  (owned instructions).filterMap fun item => if item.1 = position then pick item.2 else none

/-- Calls are grouped as specified: one for every call instruction in order, with the entry of the
catalog, its copyins and its copyouts. -/
structure Groups (catalog : Catalog) (instructions : List Instruction) (calls : List Call) :
    Prop where
  heads : calls.map (fun call => (call.syscall.id, call.index, call.args)) =
    instructions.filterMap Instruction.head?
  entries : ∀ call ∈ calls, catalog.entry? call.syscall.id = some call.syscall
  copyins : calls.map Call.copyin =
    (List.range calls.length).map (belongings Instruction.copyin? instructions)
  copyouts : calls.map Call.copyout =
    (List.range calls.length).map (belongings Instruction.copyout? instructions)

theorem callOpen_append_singleton (before : List Instruction) (instruction : Instruction) :
    callOpen (before ++ [instruction]) =
      if instruction.isCopyout then callOpen before else instruction.isCall := by
  cases instruction <;>
    simp [callOpen, Instruction.isCopyout, Instruction.isCall, List.filter_append]

theorem owned_append_singleton (before : List Instruction) (instruction : Instruction) :
    owned (before ++ [instruction]) =
      owned before ++ [(instruction.owner before, instruction)] := by
  rw [owned, List.mapIdx_concat, List.take_left]
  congr 1
  apply List.mapIdx_eq_mapIdx_iff.mpr
  intro position inside
  rw [List.take_append_of_le_length (Nat.le_of_lt inside)]

theorem belongings_append_singleton {β : Type} (pick : Instruction → Option β)
    (before : List Instruction) (instruction : Instruction) (position : Nat) :
    belongings pick (before ++ [instruction]) position = belongings pick before position ++
      if instruction.owner before = position then (pick instruction).toList else [] := by
  rw [belongings, owned_append_singleton, List.filterMap_append, belongings]
  congr 1
  by_cases own : instruction.owner before = position
  · cases picked : pick instruction <;> simp [own, picked]
  · simp [own]

theorem belongings_append_of_none {β : Type} {pick : Instruction → Option β}
    {before : List Instruction} {instruction : Instruction} (none : pick instruction = none)
    (position : Nat) :
    belongings pick (before ++ [instruction]) position = belongings pick before position := by
  rw [belongings_append_singleton, none]
  by_cases own : instruction.owner before = position
  · rw [if_pos own]
    exact List.append_nil _
  · rw [if_neg own, List.append_nil]

-- A copyout joins the call before it, unless a copyin has announced the next one.
example : (List.range 2).map (belongings Instruction.copyout?
    [.copyout ⟨0, 0, 8⟩, .call 0 noResult [], .copyout ⟨1, 0, 8⟩, .copyin ⟨0, .data ⟨[], true⟩⟩,
      .copyout ⟨2, 0, 8⟩, .call 0 noResult [], .copyout ⟨3, 0, 8⟩]) =
    [[⟨0, 0, 8⟩, ⟨1, 0, 8⟩], [⟨2, 0, 8⟩, ⟨3, 0, 8⟩]] := by decide

theorem getElem_eq_of_map_eq {α β : Type} {f : α → β} {front back : List α}
    (same : front.map f = back.map f) {position : Nat} (inside : position < front.length)
    (within : position < back.length) : f front[position] = f back[position] := by
  have bound : position < (front.map f).length := by
    rw [List.length_map]
    exact inside
  simpa only [List.getElem_map] using List.getElem_of_eq same bound

theorem Groups.unique {catalog : Catalog} {instructions : List Instruction}
    {calls others : List Call} (first : Groups catalog instructions calls)
    (second : Groups catalog instructions others) : calls = others := by
  have heads := first.heads.trans second.heads.symm
  have length : calls.length = others.length := by
    simpa only [List.length_map] using congrArg List.length heads
  have copyins : calls.map Call.copyin = others.map Call.copyin := by
    rw [first.copyins, second.copyins, length]
  have copyouts : calls.map Call.copyout = others.map Call.copyout := by
    rw [first.copyouts, second.copyouts, length]
  apply List.ext_getElem length
  intro position inside within
  have head := getElem_eq_of_map_eq heads inside within
  rw [Prod.mk.injEq, Prod.mk.injEq] at head
  have syscall : calls[position].syscall = others[position].syscall := by
    have entry := first.entries _ (List.getElem_mem inside)
    rw [head.1, second.entries _ (List.getElem_mem within)] at entry
    exact (Option.some.inj entry).symm
  calc
    calls[position] = ⟨calls[position].syscall, calls[position].index, calls[position].args,
        calls[position].copyin, calls[position].copyout⟩ := rfl
    _ = others[position] := by
      rw [syscall, head.2.1, head.2.2, getElem_eq_of_map_eq copyins inside within,
        getElem_eq_of_map_eq copyouts inside within]

theorem length_filterMap_head? (instructions : List Instruction) :
    (instructions.filterMap Instruction.head?).length = instructions.countP Instruction.isCall := by
  induction instructions with
  | nil => rfl
  | cons instruction later ih =>
    rw [List.filterMap_cons, List.countP_cons, ← ih]
    cases instruction <;> rfl

section Slots

variable {β : Type}

def slotAt (lists : List (List β)) (last : List β) (position : Nat) : List β :=
  (lists ++ [last])[position]?.getD []

theorem slotAt_last (lists : List (List β)) (last more : List β) (position : Nat) :
    slotAt lists (last ++ more) position =
      slotAt lists last position ++ if lists.length = position then more else [] := by
  unfold slotAt
  rcases Nat.lt_trichotomy position lists.length with below | rfl | above
  · rw [List.getElem?_append_left below, List.getElem?_append_left below, if_neg (by omega),
      List.append_nil]
  · simp
  · rw [List.getElem?_eq_none (by simp; omega), List.getElem?_eq_none (by simp; omega),
      if_neg (by omega)]
    rfl

theorem slotAt_of_le {lists : List (List β)} {list last : List β} {position : Nat}
    (inside : position ≤ lists.length) :
    slotAt (lists ++ [list]) last position = slotAt lists list position := by
  unfold slotAt
  rw [List.getElem?_append_left (by simp; omega)]

theorem slotAt_push (lists : List (List β)) (last : List β) (position : Nat) :
    slotAt (lists ++ [last]) [] position = slotAt lists last position := by
  by_cases inside : position ≤ lists.length
  · exact slotAt_of_le inside
  · unfold slotAt
    rw [List.getElem?_eq_none (l := lists ++ [last]) (by simp; omega),
      List.getElem?_append_right (by simp; omega)]
    cases position - (lists ++ [last]).length <;> rfl

theorem slotAt_before_last (lists : List (List β)) (list more last : List β) (position : Nat) :
    slotAt (lists ++ [list ++ more]) last position =
      slotAt (lists ++ [list]) last position ++
        if lists.length = position then more else [] := by
  by_cases inside : position ≤ lists.length
  · rw [slotAt_of_le inside, slotAt_of_le inside, slotAt_last]
  · unfold slotAt
    rw [if_neg (by omega), List.append_nil, List.getElem?_append_right (by simp; omega),
      List.getElem?_append_right (by simp; omega), List.length_append, List.length_append]
    rfl

theorem slotAt_inside {lists : List (List β)} (last : List β) {position : Nat}
    (inside : position < lists.length) : slotAt lists last position = lists[position] := by
  rw [slotAt, List.getElem?_append_left inside, List.getElem?_eq_getElem inside]
  rfl

theorem eq_map_of_slotAt {lists : List (List β)} {last : List β} {pick : Nat → List β}
    (same : ∀ position, slotAt lists last position = pick position) :
    lists = (List.range lists.length).map pick := by
  apply List.ext_getElem
  · rw [List.length_map, List.length_range]
  · intro position inside _
    rw [List.getElem_map, List.getElem_range, ← same, slotAt_inside last inside]

end Slots

namespace Assembly

/-- The assembly holds what the instructions before say: as many calls, the last of them open or
not, and in every place the copyins and copyouts that belong there. What waits for a call stands in
the place of the next one, and nothing waits while a call is open. -/
structure Mirrors (a : Assembly) (before : List Instruction) : Prop where
  heads : a.calls.map (fun call => (call.syscall.id, call.index, call.args)) =
    before.filterMap Instruction.head?
  isOpen : a.current?.isSome = callOpen before
  complete : a.Complete ↔ callOpen before = true ∨ before = []
  copyins : ∀ position, slotAt (a.calls.map Call.copyin) a.copyin position =
    belongings Instruction.copyin? before position
  copyouts : ∀ position, slotAt (a.calls.map Call.copyout) a.copyout position =
    belongings Instruction.copyout? before position

theorem mirrors_empty : Mirrors {} [] where
  heads := rfl
  isOpen := rfl
  complete := iff_of_true ⟨rfl, rfl⟩ (.inr rfl)
  copyins position := by cases position <;> rfl
  copyouts position := by cases position <;> rfl

variable {catalog : Catalog} {limit : UInt64} {a : Assembly} {before : List Instruction}
  {instruction : Instruction} {instructions : List Instruction}

theorem Mirrors.length_calls (mirrors : a.Mirrors before) :
    a.calls.length = before.countP Instruction.isCall := by
  rw [← length_filterMap_head?, ← mirrors.heads, List.length_map]

theorem Mirrors.add_copyin (mirrors : a.Mirrors before) (input : Copyin) :
    (a.add catalog (.copyin input)).Mirrors (before ++ [.copyin input]) := by
  have calls : (a.add catalog (.copyin input)).calls = a.calls := calls_close a
  constructor
  · rw [calls, mirrors.heads, List.filterMap_append]
    exact (List.append_nil _).symm
  · rw [callOpen_append_singleton]
    rfl
  · have waits : ¬ (a.add catalog (.copyin input)).Complete := fun complete =>
      List.concat_ne_nil input a.copyin complete.1
    simp [waits, callOpen_append_singleton, Instruction.isCopyout, Instruction.isCall]
  · intro position
    rw [belongings_append_singleton, ← mirrors.copyins, calls]
    change slotAt _ (a.copyin ++ [input]) position = _
    rw [slotAt_last, List.length_map, mirrors.length_calls]
    rfl
  · intro position
    rw [belongings_append_of_none rfl, ← mirrors.copyouts, calls]
    rfl

theorem Mirrors.add_call (mirrors : a.Mirrors before) {word index : UInt64} {args : List Arg}
    {syscall : Syscall} (found : catalog.entry? word = some syscall) (own : syscall.id = word) :
    (a.add catalog (.call word index args)).Mirrors (before ++ [.call word index args]) := by
  have added : a.add catalog (.call word index args) =
      { closed := a.calls, current? := some ⟨syscall, index, args, a.copyin, a.copyout⟩ } := by
    simp only [add, found, Option.map_some]
  have calls : (a.add catalog (.call word index args)).calls =
      a.calls ++ [⟨syscall, index, args, a.copyin, a.copyout⟩] := by
    rw [added]
    rfl
  constructor
  · rw [calls, List.map_append, mirrors.heads, List.filterMap_append, ← own]
    rfl
  · rw [callOpen_append_singleton, added]
    rfl
  · rw [callOpen_append_singleton, added]
    exact iff_of_true ⟨rfl, rfl⟩ (.inl rfl)
  · intro position
    rw [belongings_append_of_none rfl, ← mirrors.copyins, calls, added, List.map_append]
    exact slotAt_push _ a.copyin position
  · intro position
    rw [belongings_append_of_none rfl, ← mirrors.copyouts, calls, added, List.map_append]
    exact slotAt_push _ a.copyout position

theorem Mirrors.add_copyout_idle (mirrors : a.Mirrors before) (idle : a.current? = none)
    (output : Copyout) :
    (a.add catalog (.copyout output)).Mirrors (before ++ [.copyout output]) := by
  have shut : callOpen before = false := by
    rw [← mirrors.isOpen, idle]
    rfl
  have added : a.add catalog (.copyout output) =
      { a with copyout := a.copyout ++ [output] } := by
    simp only [add, idle]
  rw [added]
  constructor
  · rw [List.filterMap_append]
    exact mirrors.heads.trans (List.append_nil _).symm
  · rw [callOpen_append_singleton]
    exact mirrors.isOpen
  · have waits : ¬ Complete { a with copyout := a.copyout ++ [output] } := fun complete =>
      List.concat_ne_nil output a.copyout complete.2
    simp [waits, callOpen_append_singleton, Instruction.isCopyout, shut]
  · intro position
    rw [belongings_append_of_none rfl, ← mirrors.copyins]
    rfl
  · intro position
    rw [belongings_append_singleton, ← mirrors.copyouts]
    change slotAt (a.calls.map Call.copyout) (a.copyout ++ [output]) position = _
    rw [slotAt_last, List.length_map, mirrors.length_calls, Instruction.owner, shut]
    rfl

theorem Mirrors.add_copyout_open (mirrors : a.Mirrors before) {call : Call}
    (current : a.current? = some call) (output : Copyout) :
    (a.add catalog (.copyout output)).Mirrors (before ++ [.copyout output]) := by
  have opened : callOpen before = true := by
    rw [← mirrors.isOpen, current]
    rfl
  have added : a.add catalog (.copyout output) =
      { a with current? := some { call with copyout := call.copyout ++ [output] } } := by
    simp only [add, current]
  have calls : a.calls = a.closed ++ [call] := by
    rw [Assembly.calls, current]
    rfl
  have last : a.closed.length = before.countP Instruction.isCall - 1 := by
    rw [← mirrors.length_calls, calls, List.length_append]
    rfl
  have changed : (a.add catalog (.copyout output)).calls =
      a.closed ++ [{ call with copyout := call.copyout ++ [output] }] := by
    rw [added]
    rfl
  constructor
  · have heads := mirrors.heads
    rw [calls, List.map_append] at heads
    rw [changed, List.filterMap_append, List.map_append]
    exact heads.trans (List.append_nil _).symm
  · rw [callOpen_append_singleton, added]
    exact opened.symm
  · rw [callOpen_append_singleton, added]
    exact iff_of_true (mirrors.complete.mpr (.inl opened)) (.inl opened)
  · intro position
    rw [belongings_append_of_none rfl, ← mirrors.copyins, changed, added, calls,
      List.map_append, List.map_append]
    rfl
  · intro position
    rw [belongings_append_singleton, ← mirrors.copyouts, changed, added, calls,
      List.map_append, List.map_append, Instruction.owner, opened]
    change slotAt (_ ++ [call.copyout ++ [output]]) a.copyout position = _
    rw [slotAt_before_last, List.length_map, last]
    rfl

theorem Mirrors.add (mirrors : a.Mirrors before) (legal : instruction.Legal catalog limit) :
    (a.add catalog instruction).Mirrors (before ++ [instruction]) := by
  cases instruction with
  | copyin input => exact mirrors.add_copyin input
  | copyout output =>
    cases current : a.current? with
    | none => exact mirrors.add_copyout_idle current output
    | some call => exact mirrors.add_copyout_open current output
  | call word index args =>
    rcases entry_of_legal legal with ⟨syscall, found, own⟩
    exact mirrors.add_call found own

theorem Mirrors.addAll (mirrors : a.Mirrors before)
    (legal : ∀ instruction ∈ instructions, instruction.Legal catalog limit) :
    (a.addAll catalog instructions).Mirrors (before ++ instructions) := by
  induction instructions generalizing a before with
  | nil =>
    rw [List.append_nil]
    exact mirrors
  | cons instruction later ih =>
    rw [List.forall_mem_cons] at legal
    rw [List.append_cons]
    exact ih (mirrors.add legal.1) legal.2

theorem Mirrors.groups (mirrors : a.Mirrors before) (resolved : a.Resolved catalog) :
    Groups catalog before a.calls := by
  constructor
  · exact mirrors.heads
  · exact resolved
  · simpa only [List.length_map] using eq_map_of_slotAt mirrors.copyins
  · simpa only [List.length_map] using eq_map_of_slotAt mirrors.copyouts

end Assembly

end SyscallStream
