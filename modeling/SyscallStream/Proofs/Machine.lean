import SyscallStream.Proofs.Steps
import SyscallStream.Proofs.VariableTable

/-! A machine that checks every operation. It reads a stream by the same steps as the decoder, with a
64-bit position in one buffer in place of the bytes that are left, and stops with a fault where an
operation has no result: a sum or product beyond 64 bits, a range outside the buffer, a slot outside
the table, a failing assertion. Below the definitions stands what each operation does where its
checks hold. -/

namespace SyscallStream

inductive Fault where
  /-- A sum or a product does not fit in 64 bits. -/
  | arithmetic
  /-- A division by zero. -/
  | division
  /-- A range of bytes does not lie in the buffer. -/
  | slice
  /-- A word is copied from another number of bytes than eight. -/
  | width
  /-- A slot that is written is not in the table. -/
  | slot
  /-- A call starts while another one is open. -/
  | begun
  /-- The program ends while a call is open. -/
  | unfinished
  /-- There are arguments while no call is open. -/
  | stray
  /-- There are more instructions than words. -/
  | endless
  deriving DecidableEq, Repr

inductive Halt where
  | refused (error : DecodeError)
  | fault (fault : Fault)
  deriving DecidableEq, Repr

structure Machine where
  bytes : Bytes
  position : UInt64 := 0
  vars : Variables
  pending : Pending := {}
  calls : Array Call := #[]

abbrev Checked := EStateM Halt Machine

namespace Machine

def refuse {α : Type} (error : DecodeError) : Checked α := throw (.refused error)

def check (condition : Prop) [Decidable condition] (fault : Fault) : Checked Unit :=
  if condition then pure () else throw (.fault fault)

section Arithmetic

def add (a b : UInt64) : Checked UInt64 := do
  check (a.toNat + b.toNat < UInt64.size) .arithmetic
  return a + b

def mul (a b : UInt64) : Checked UInt64 := do
  check (a.toNat * b.toNat < UInt64.size) .arithmetic
  return a * b

def div (a b : UInt64) : Checked UInt64 := do
  check (b ≠ 0) .division
  return a / b

end Arithmetic

section Buffer

def remaining (m : Machine) : UInt64 :=
  if m.position ≤ UInt64.ofNat m.bytes.length then UInt64.ofNat m.bytes.length - m.position else 0

def overflow {α : Type} (needed : UInt64) : Checked α := do
  let m ← get
  refuse (.overflow m.position.toNat needed.toNat m.remaining.toNat)

def slice (start stop : UInt64) : Checked Bytes := do
  let m ← get
  check (start ≤ stop ∧ stop.toNat ≤ m.bytes.length) .slice
  return (m.bytes.take stop.toNat).drop start.toNat

def take (size : UInt64) : Checked Bytes := do
  let m ← get
  if size ≤ m.remaining then
    let stop ← add m.position size
    set { m with position := stop }
    slice m.position stop
  else overflow size

def word : Checked UInt64 := do
  let bytes ← take 8
  check (bytes.length = wordSize) .width
  return Word.ofBytes bytes

/-- The size in whole words, if that fits. The sum is tried, the product has to fit. -/
def padded? (size : UInt64) : Checked (Option UInt64) :=
  if size.toNat + 7 < UInt64.size then do
    let words ← div (size + 7) 8
    let padded ← mul words 8
    return some padded
  else return none

def takeFirst (size padded : UInt64) : Checked Bytes := do
  let m ← get
  let _ ← take padded
  let stop ← add m.position size
  slice m.position stop

def blob (size : UInt64) : Checked Bytes := do
  let padded? ← padded? size
  match padded? with
  | none => overflow (UInt64.ofNat (UInt64.size - 1))
  | some padded => takeFirst size padded

def capacity (count : UInt64) : Checked Nat := do
  let m ← get
  let each ← mul 8 3
  let fit ← div m.remaining each
  return (min count fit).toNat

def reserve (count : UInt64) : Checked ChunkBuffer := do
  return .withRoom (← capacity count)

end Buffer

section Table

def allow (index : UInt64) : Checked Unit := do
  let m ← get
  if m.vars.admits index then pure () else refuse (m.vars.refusal index)

def require (index : UInt64) : Checked Unit := do
  allow index
  let next ← add index 1
  modify fun m => { m with vars := { m.vars with required := max m.vars.required next } }

def grow (index : UInt64) : Checked Unit := do
  let m ← get
  if m.vars.slots.size ≤ index.toNat then
    let size ← add index 1
    let zeros := Array.replicate (size.toNat - m.vars.slots.size) 0
    set { m with vars := { m.vars with slots := m.vars.slots ++ zeros } }
  else pure ()

def write (index value : UInt64) : Checked Unit := do
  let m ← get
  check (index.toNat < m.vars.slots.size) .slot
  let slots := m.vars.slots.setIfInBounds index.toNat value
  set { m with vars := { m.vars with slots } }

def assign (index value : UInt64) : Checked Unit := do
  allow index
  grow index
  write index value
  require index

end Table

section Assembler

def gather (change : Pending → Pending) : Checked Unit := do
  let m ← get
  let pending := change m.pending
  set { m with pending }
  check (pending.syscall? = none → pending.args = #[]) .stray

def start (syscall : Syscall) (index : UInt64) : Checked Unit := do
  let m ← get
  check (m.pending.syscall? = none) .begun
  gather fun pending => { pending with syscall? := some syscall, index }

def pushArg (arg : Arg) : Checked Unit :=
  gather fun pending => { pending with args := pending.args.push arg }

def pushCopyin (copyin : Copyin) : Checked Unit :=
  gather fun pending => { pending with copyin := pending.copyin.push copyin }

def pushCopyout (copyout : Copyout) : Checked Unit :=
  gather fun pending => { pending with copyout := pending.copyout.push copyout }

def requireAll (indices : List UInt64) : Checked Unit := indices.forM require

/-- What was gathered is taken away first, and lost if an index is refused. -/
def commit : Checked Unit := do
  let m ← get
  match m.pending.syscall? with
  | none => pure ()
  | some syscall =>
    gather fun _ => {}
    requireAll m.pending.references
    modify fun next => { next with calls := next.calls.push (m.pending.toCall syscall) }

end Assembler

def lookup (catalog : Catalog) (word : UInt64) : Checked Syscall :=
  match catalog.entry? word with
  | none => refuse (.badSyscall word catalog.size)
  | some syscall =>
    if syscall.id = word then return syscall else refuse (.idMismatch word syscall.id)

def steps (catalog : Catalog) : Steps Checked where
  word := word
  blob := blob
  reserve := reserve
  refuse := refuse
  lookup := lookup catalog
  assign := assign
  commit := commit
  start := start
  pushArg := pushArg
  pushCopyin := pushCopyin
  pushCopyout := pushCopyout
  finished := do return (← get).calls.size

def instructions (catalog : Catalog) : (count : Nat) → Checked Unit
  | 0 => throw (.fault .endless)
  | count + 1 => do
    let more ← (steps catalog).instruction
    if more then instructions catalog count else pure ()

def finish : Checked Program := do
  let m ← get
  check (m.pending.syscall? = none) .unfinished
  if m.pending.copyin.isEmpty && m.pending.copyout.isEmpty then
    match m.vars.close with
    | .error error => refuse error
    | .ok vars => return { calls := m.calls.toList, vars }
  else refuse (.dangling m.pending.copyin.size m.pending.copyout.size)

def program (catalog : Catalog) (count : Nat) : Checked Program := do
  instructions catalog count
  finish

def initial (limits : Limits) (bytes : Bytes) : Machine where
  bytes := bytes
  vars := .empty limits.maxVars

end Machine

def checkedDecode (catalog : Catalog) (limits : Limits) (bytes : Bytes) :
    Except Fault (Except DecodeError Program) :=
  if limits.maxBytes.toNat < bytes.length then
    .ok (.error (.programTooLarge bytes.length limits.maxBytes))
  else
    match Machine.program catalog (bytes.length / wordSize + 1) (.initial limits bytes) with
    | .ok program _ => .ok (.ok program)
    | .error (.refused error) _ => .ok (.error error)
    | .error (.fault fault) _ => .error fault

namespace Machine

theorem bind_ok {α β : Type} {step : Checked α} {next : α → Checked β} {m m' : Machine} {a : α}
    (ran : step m = .ok a m') : (step >>= next) m = next a m' := by
  change EStateM.bind step next m = _
  rw [EStateM.bind, ran]

theorem bind_error {α β : Type} {step : Checked α} {next : α → Checked β} {m m' : Machine}
    {halt : Halt} (ran : step m = .error halt m') : (step >>= next) m = .error halt m' := by
  change EStateM.bind step next m = _
  rw [EStateM.bind, ran]

theorem get_bind {β : Type} (next : Machine → Checked β) (m : Machine) :
    ((get : Checked Machine) >>= next) m = next m m :=
  rfl

theorem check_of {condition : Prop} [Decidable condition] (holds : condition) (fault : Fault) :
    check condition fault = pure () :=
  if_pos holds

theorem add_of {a b : UInt64} (fits : a.toNat + b.toNat < UInt64.size) : add a b = pure (a + b) := by
  rw [add, check_of fits]
  rfl

theorem mul_of {a b : UInt64} (fits : a.toNat * b.toNat < UInt64.size) : mul a b = pure (a * b) := by
  rw [mul, check_of fits]
  rfl

theorem div_of {a b : UInt64} (nonzero : b ≠ 0) : div a b = pure (a / b) := by
  rw [div, check_of nonzero]
  rfl

theorem slice_of {m : Machine} {start stop : UInt64}
    (range : start ≤ stop ∧ stop.toNat ≤ m.bytes.length) :
    slice start stop m = .ok ((m.bytes.take stop.toNat).drop start.toNat) m := by
  rw [slice, get_bind, check_of range]
  rfl

structure At (m : Machine) (c : Cursor) : Prop where
  fits : m.bytes.length < UInt64.size
  offset : m.position.toNat = c.offset
  inside : c.offset ≤ m.bytes.length
  rest : c.rest = m.bytes.drop c.offset

section Reading

variable {m : Machine} {c : Cursor} {size : UInt64}

theorem At.of_same (located : m.At c) {m' : Machine} (bytes : m'.bytes = m.bytes)
    (position : m'.position = m.position) : m'.At c := by
  rcases located with ⟨fits, offset, inside, rest⟩
  rw [← bytes] at fits inside rest
  rw [← position] at offset
  exact ⟨fits, offset, inside, rest⟩

theorem At.remaining_eq (located : m.At c) : c.remaining = m.bytes.length - c.offset := by
  rw [c.remaining_eq, located.rest, List.length_drop]

theorem At.toNat_remaining (located : m.At c) : m.remaining.toNat = c.remaining := by
  have length : (UInt64.ofNat m.bytes.length).toNat = m.bytes.length :=
    UInt64.toNat_ofNat_of_lt' located.fits
  have before : m.position ≤ UInt64.ofNat m.bytes.length := by
    rw [UInt64.le_iff_toNat_le, length, located.offset]
    exact located.inside
  rw [remaining, if_pos before, UInt64.toNat_sub_of_le _ _ before, length, located.offset,
    located.remaining_eq]

theorem At.toNat_add (located : m.At c) (enough : size.toNat ≤ c.remaining) :
    m.position.toNat + size.toNat < UInt64.size ∧
      (m.position + size).toNat = c.offset + size.toNat := by
  have left := located.remaining_eq
  have fits := located.fits
  have inside := located.inside
  have sum : m.position.toNat + size.toNat < UInt64.size := by
    rw [located.offset]
    omega
  refine ⟨sum, ?_⟩
  rw [UInt64.toNat_add, Nat.mod_eq_of_lt sum, located.offset]

theorem At.advance (located : m.At c) (enough : size.toNat ≤ c.remaining) :
    At { m with position := m.position + size } (c.advance size.toNat) where
  fits := located.fits
  offset := (located.toNat_add enough).2
  inside := by
    have left := located.remaining_eq
    have inside := located.inside
    change c.offset + size.toNat ≤ m.bytes.length
    omega
  rest := by
    rw [Cursor.rest_advance, located.rest, List.drop_drop, Cursor.offset_advance]

theorem At.slice (located : m.At c) (enough : size.toNat ≤ c.remaining) (m' : Machine)
    (same : m'.bytes = m.bytes) :
    Machine.slice m.position (m.position + size) m' = .ok (c.rest.take size.toNat) m' := by
  have stop := (located.toNat_add enough).2
  have left := located.remaining_eq
  have inside := located.inside
  rw [slice_of]
  · rw [same, stop, located.offset, located.rest, List.drop_take, Nat.add_sub_cancel_left]
  · rw [UInt64.le_iff_toNat_le, stop, located.offset, same]
    omega

theorem take_ok (located : m.At c) (enough : size.toNat ≤ c.remaining) :
    take size m = .ok (c.rest.take size.toNat) { m with position := m.position + size } := by
  have left : size ≤ m.remaining := by
    rw [UInt64.le_iff_toNat_le, located.toNat_remaining]
    exact enough
  rw [take, get_bind, if_pos left, add_of (located.toNat_add enough).1]
  exact located.slice enough _ rfl

theorem overflow_eq {α : Type} (located : m.At c) (needed : UInt64) :
    (overflow needed : Checked α) m = .error (.refused (c.overflow needed.toNat)) m := by
  rw [overflow, get_bind, located.offset, located.toNat_remaining]
  rfl

theorem take_refused (located : m.At c) (short : c.remaining < size.toNat) :
    take size m = .error (.refused (c.overflow size.toNat)) m := by
  have left : ¬ size ≤ m.remaining := by
    rw [UInt64.le_iff_toNat_le, located.toNat_remaining]
    omega
  rw [take, get_bind, if_neg left]
  exact overflow_eq located size

theorem padded?_eq (size : UInt64) : padded? size = pure (paddedSize? size) := by
  unfold padded? paddedSize?
  by_cases fits : size.toNat + 7 < UInt64.size
  · have product : ((size + 7) / 8).toNat * (8 : UInt64).toNat < UInt64.size := by
      have h7 : (7 : UInt64).toNat = 7 := rfl
      have h8 : (8 : UInt64).toNat = 8 := rfl
      rw [UInt64.toNat_div, UInt64.toNat_add, h7, h8]
      unfold UInt64.size at fits ⊢
      omega
    rw [if_pos fits, if_pos fits, div_of (by decide)]
    change (mul ((size + 7) / 8) 8 >>= fun padded => pure (some padded) : Checked _) = _
    rw [mul_of product]
    rfl
  · rw [if_neg fits, if_neg fits]

def Reads {α : Type} (reader : Reader α) (step : Checked α) : Prop :=
  ∀ m c, m.At c →
    (∃ a d position, reader c = .ok a d ∧ step m = .ok a { m with position } ∧
      At { m with position } d) ∨
    ∃ error d m', reader c = .error error d ∧ step m = .error (.refused error) m'

theorem word_reads : Reads readWord word := by
  intro m c located
  by_cases enough : wordSize ≤ c.remaining
  · have taken : take 8 m = .ok (c.rest.take wordSize) { m with position := m.position + 8 } :=
      @take_ok m c 8 located enough
    have eight : (c.rest.take wordSize).length = wordSize := Cursor.length_take enough
    have ran : word m =
        .ok (Word.ofBytes (c.rest.take wordSize)) { m with position := m.position + 8 } := by
      rw [word, bind_ok taken, check_of eight]
      rfl
    exact .inl ⟨_, _, _, if_pos enough, ran, @At.advance m c 8 located enough⟩
  · have short : c.remaining < (8 : UInt64).toNat := Nat.not_le.mp enough
    exact .inr ⟨_, _, _, if_neg enough, bind_error (take_refused located short)⟩

theorem takeFirst_ok {padded : UInt64} (located : m.At c) (enough : padded.toNat ≤ c.remaining)
    (part : size.toNat ≤ padded.toNat) :
    takeFirst size padded m =
      .ok (c.rest.take size.toNat) { m with position := m.position + padded } := by
  have enough' : size.toNat ≤ c.remaining := Nat.le_trans part enough
  rw [takeFirst, get_bind, bind_ok (take_ok located enough), add_of (located.toNat_add enough').1]
  exact located.slice enough' _ rfl

theorem blob_reads (size : UInt64) : Reads (readBlob size) (blob size) := by
  intro m c located
  have opened : blob size = match paddedSize? size with
      | none => overflow (UInt64.ofNat (UInt64.size - 1))
      | some padded => takeFirst size padded := by
    rw [blob, padded?_eq]
    rfl
  unfold readBlob
  rw [opened]
  cases rounded : paddedSize? size with
  | none => exact .inr ⟨_, _, _, rfl, overflow_eq located _⟩
  | some padded =>
    have part : size.toNat ≤ padded.toNat := by
      rw [(paddedSize?_eq_some.mp rounded).2]
      exact le_roundUp _
    by_cases enough : padded.toNat ≤ c.remaining
    · exact .inl ⟨_, _, _, if_pos enough, takeFirst_ok located enough part,
        located.advance enough⟩
    · have refused : takeFirst size padded m =
          .error (.refused (c.overflow padded.toNat)) m := by
        rw [takeFirst, get_bind, bind_error (take_refused located (Nat.not_le.mp enough))]
      exact .inr ⟨_, _, _, if_neg enough, refused⟩

theorem reserve_reads (count : UInt64) : Reads (Chunk.reserve count) (reserve count) := by
  intro m c located
  have each : (3 * wordSize : Nat) = ((8 : UInt64) * 3).toNat := rfl
  have room : Chunk.capacity c count = (min count (m.remaining / (8 * 3))).toNat := by
    rw [Chunk.capacity, ← located.toNat_remaining, each, ← UInt64.toNat_div]
    change _ = (if count ≤ m.remaining / (8 * 3) then count else _).toNat
    split
    · rename_i fewer
      exact Nat.min_eq_left (UInt64.le_iff_toNat_le.mp fewer)
    · rename_i more
      rw [UInt64.le_iff_toNat_le] at more
      exact Nat.min_eq_right (by omega)
  have ran : capacity count m = .ok (Chunk.capacity c count) m := by
    have small : (8 : UInt64).toNat * (3 : UInt64).toNat < UInt64.size := by decide
    have nonzero : (8 * 3 : UInt64) ≠ 0 := by decide
    rw [room, capacity, get_bind, mul_of small]
    change (div m.remaining (8 * 3) >>= fun fit => pure (min count fit).toNat : Checked Nat) m = _
    rw [div_of nonzero]
    rfl
  have made : reserve count m = .ok (.withRoom (Chunk.capacity c count)) m := by
    rw [reserve, bind_ok ran]
    rfl
  exact .inl ⟨_, _, m.position, rfl, made, located⟩

end Reading

section Table

variable {m : Machine} {index value : UInt64}

theorem allow_of (below : index < m.vars.limit) : allow index m = .ok () m := by
  rw [allow, get_bind, if_pos (Variables.admits_iff.mpr below)]
  rfl

theorem allow_refused (beyond : ¬ index < m.vars.limit) :
    allow index m = .error (.refused (m.vars.refusal index)) m := by
  rw [allow, get_bind, if_neg (mt Variables.admits_iff.mp beyond)]
  rfl

theorem add_one_of (below : index < m.vars.limit) :
    add index 1 = pure (index + 1) ∧ (index + 1).toNat = index.toNat + 1 := by
  have bound := UInt64.lt_iff_toNat_lt.mp below
  have limit := m.vars.limit.toNat_lt
  have one : (1 : UInt64).toNat = 1 := rfl
  have sum : index.toNat + (1 : UInt64).toNat < UInt64.size := by
    unfold UInt64.size
    omega
  refine ⟨add_of sum, ?_⟩
  rw [UInt64.toNat_add, Nat.mod_eq_of_lt sum, one]

theorem require_of (below : index < m.vars.limit) :
    require index m = .ok () { m with vars := m.vars.mention index } := by
  rw [require, bind_ok (allow_of below), (add_one_of below).1]
  rfl

def grown (slots : Array UInt64) (slot : Nat) : Array UInt64 :=
  if slots.size ≤ slot then slots ++ Array.replicate (slot + 1 - slots.size) 0 else slots

theorem lt_size_grown (slots : Array UInt64) (slot : Nat) : slot < (grown slots slot).size := by
  unfold grown
  split
  · rw [Array.size_append, Array.size_replicate]
    omega
  · omega

theorem setIfInBounds_grown (slots : Array UInt64) (slot : Nat) (value : UInt64) :
    (grown slots slot).setIfInBounds slot value = Variables.setSlot slots slot value := by
  apply Array.ext_getElem?
  intro i
  rw [Variables.getElem?_setSlot, Array.getElem?_setIfInBounds]
  have inside := lt_size_grown slots slot
  unfold grown
  grind

theorem grow_of (below : index < m.vars.limit) :
    grow index m =
      .ok () { m with vars := { m.vars with slots := grown m.vars.slots index.toNat } } := by
  rw [grow, get_bind, grown]
  split
  · rw [(add_one_of below).1]
    change EStateM.Result.ok () _ = _
    rw [(add_one_of below).2]
  · rfl

theorem write_of (inside : index.toNat < m.vars.slots.size) :
    write index value m =
      .ok () { m with vars := { m.vars with
        slots := m.vars.slots.setIfInBounds index.toNat value } } := by
  rw [write, get_bind, check_of inside]
  rfl

theorem assign_of (below : index < m.vars.limit) :
    assign index value m = .ok () { m with vars := m.vars.put index value } := by
  have inside := lt_size_grown m.vars.slots index.toNat
  rw [assign, bind_ok (allow_of below), bind_ok (grow_of below), bind_ok (write_of inside),
    setIfInBounds_grown]
  exact require_of below

theorem assign_refused (beyond : ¬ index < m.vars.limit) :
    assign index value m = .error (.refused (m.vars.refusal index)) m :=
  bind_error (allow_refused beyond)

theorem requireAll_eq (m : Machine) (indices : List UInt64) :
    (∃ vars, m.vars.referenceAll indices = .ok vars ∧
      requireAll indices m = .ok () { m with vars }) ∨
    ∃ error m', m.vars.referenceAll indices = .error error ∧
      requireAll indices m = .error (.refused error) m' := by
  induction indices generalizing m with
  | nil => exact .inl ⟨m.vars, rfl, rfl⟩
  | cons index indices ih =>
    by_cases below : index < m.vars.limit
    · have required : requireAll (index :: indices) m =
          requireAll indices { m with vars := m.vars.mention index } :=
        bind_ok (require_of below)
      rw [Variables.referenceAll_cons_of_lt below, required]
      exact ih { m with vars := m.vars.mention index }
    · exact .inr ⟨_, m, Variables.referenceAll_cons_of_not_lt below indices,
        bind_error (bind_error (allow_refused below))⟩

end Table

end Machine

end SyscallStream
