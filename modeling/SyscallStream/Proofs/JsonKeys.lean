import SyscallStream.Program.Json
import SyscallStream.Proofs.Workload

/-! Reading the JSON of a program by key. Every object of it has its keys once, except for a checksum:
that has a kind as an argument and a kind of its own. A reader that keeps the last of two members
finds the kind of every argument but of a checksum. -/

namespace SyscallStream

namespace Json

inductive DistinctKeys : Json → Prop
  | scalar (value : Scalar) : DistinctKeys (.scalar value)
  | array {items : List Json} (each : ∀ item ∈ items, DistinctKeys item) :
      DistinctKeys (.array items)
  | object {members : List (String × Json)} (once : (members.map Prod.fst).Nodup)
      (each : ∀ member ∈ members, DistinctKeys member.2) : DistinctKeys (.object members)

theorem distinctKeys_array {items : List Json} :
    DistinctKeys (.array items) ↔ ∀ item ∈ items, DistinctKeys item := by
  constructor
  · intro distinct
    cases distinct with
    | array each => exact each
  · exact .array

theorem distinctKeys_object {members : List (String × Json)} :
    DistinctKeys (.object members) ↔
      (members.map Prod.fst).Nodup ∧ ∀ member ∈ members, DistinctKeys member.2 := by
  constructor
  · intro distinct
    cases distinct with
    | object once each => exact ⟨once, each⟩
  · rintro ⟨once, each⟩
    exact .object once each

theorem distinctKeys_map {α : Type} {json : α → Json} {xs : List α} :
    DistinctKeys (.array (xs.map json)) ↔ ∀ x ∈ xs, DistinctKeys (json x) := by
  rw [distinctKeys_array, List.forall_mem_map]

theorem distinctKeys_nat (n : Nat) : DistinctKeys (nat n) := .scalar _

theorem distinctKeys_word (w : UInt64) : DistinctKeys (word w) := .scalar _

theorem distinctKeys_string (s : String) : DistinctKeys (string s) := .scalar _

theorem distinctKeys_bool (b : Bool) : DistinctKeys (bool b) := .scalar _

inductive Way where
  /-- To the member of that name; of several, to the last. -/
  | key (name : String)
  | item (position : Nat)

def enter : Way → Json → Option Json
  | .key name, .object members => (members.reverse.find? (·.1 == name)).map (·.2)
  | .item position, .array items => items[position]?
  | _, _ => none

def follow (ways : List Way) (value : Json) : Option Json :=
  ways.foldlM (fun value way => value.enter way) value

theorem follow_cons (way : Way) (ways : List Way) (value : Json) :
    value.follow (way :: ways) = (value.enter way).bind fun inner => inner.follow ways :=
  List.foldlM_cons

end Json

open Json

section Keys

/-- A checksum has its own kind beside its kind as an argument; no other argument repeats a key. -/
theorem Arg.distinctKeys_json (arg : Arg) : arg.json.DistinctKeys ↔ arg.kind ≠ .checksum := by
  rw [Arg.json, distinctKeys_object]
  cases arg with
  | const arg =>
    simp [members, ConstArg.members, distinctKeys_string, distinctKeys_nat, distinctKeys_word, kind]
  | result arg =>
    simp [members, ResultArg.members, distinctKeys_string, distinctKeys_nat, distinctKeys_word,
      kind]
  | data arg =>
    simp [members, DataArg.members, distinctKeys_string, distinctKeys_map, distinctKeys_nat,
      distinctKeys_bool, kind]
  | checksum arg => simp [members, ChecksumArg.members, kind]

theorem Copyin.distinctKeys_json (copyin : Copyin) :
    copyin.json.DistinctKeys ↔ copyin.arg.kind ≠ .checksum := by
  rw [Copyin.json, distinctKeys_object]
  simp [distinctKeys_word, Arg.distinctKeys_json]

theorem Copyout.distinctKeys_json (copyout : Copyout) : copyout.json.DistinctKeys := by
  rw [Copyout.json, distinctKeys_object]
  simp [distinctKeys_word]

theorem Call.distinctKeys_json (call : Call) :
    call.json.DistinctKeys ↔ ∀ arg ∈ call.arguments, arg.kind ≠ .checksum := by
  have inside : (∀ arg ∈ call.arguments, arg.kind ≠ .checksum) ↔
      (∀ arg ∈ call.args, arg.kind ≠ .checksum) ∧
        ∀ copyin ∈ call.copyin, copyin.arg.kind ≠ .checksum := by
    rw [Call.arguments, List.forall_mem_append, List.forall_mem_map, and_comm]
  rw [inside, Call.json, distinctKeys_object]
  simp [distinctKeys_string, distinctKeys_word, distinctKeys_map, Arg.distinctKeys_json,
    Copyin.distinctKeys_json, Copyout.distinctKeys_json]

theorem Program.distinctKeys_json (program : Program) :
    program.json.DistinctKeys ↔ ∀ arg ∈ program.arguments, arg.kind ≠ .checksum := by
  have inside : (∀ arg ∈ program.arguments, arg.kind ≠ .checksum) ↔
      ∀ call ∈ program.calls, ∀ arg ∈ call.arguments, arg.kind ≠ .checksum := by
    rw [Program.arguments, List.forall_mem_flatMap]
  rw [inside, Program.json, distinctKeys_object]
  simp [distinctKeys_word, distinctKeys_map, Call.distinctKeys_json]

end Keys

section Reading

/-- The kind that a reader by key finds: of a checksum, its own. -/
def Arg.lastKind : Arg → String
  | .checksum arg => arg.kind.name
  | arg => arg.kind.name

theorem Arg.lastKind_eq_iff (arg : Arg) : arg.lastKind = arg.kind.name ↔ arg.kind ≠ .checksum := by
  cases arg with
  | const | result | data => exact iff_of_true rfl nofun
  | checksum arg =>
    have apart : arg.kind.name ≠ ArgKind.checksum.name := by
      cases arg.kind
      decide
    exact iff_of_false apart fun other => other rfl

theorem Arg.enter_kind (arg : Arg) : arg.json.enter (.key "kind") = some (.string arg.lastKind) := by
  cases arg <;> rfl

theorem enter_item {α : Type} (json : α → Json) (xs : List α) (i : Nat) :
    (Json.array (xs.map json)).enter (.item i) = xs[i]?.map json :=
  List.getElem?_map

variable {program : Program} {call : Call} {i : Nat}

theorem Program.enter_call (found : program.calls[i]? = some call) (ways : List Way) :
    program.json.follow (.key "calls" :: .item i :: ways) = call.json.follow ways := by
  have calls : program.json.enter (.key "calls") = some (.array (program.calls.map Call.json)) :=
    rfl
  rw [follow_cons, calls, Option.bind_some, follow_cons, enter_item, found]
  rfl

theorem Call.enter_arg {arg : Arg} {j : Nat} (found : call.args[j]? = some arg)
    (ways : List Way) :
    call.json.follow (.key "args" :: .item j :: ways) = arg.json.follow ways := by
  have args : call.json.enter (.key "args") = some (.array (call.args.map Arg.json)) := rfl
  rw [follow_cons, args, Option.bind_some, follow_cons, enter_item, found]
  rfl

theorem Call.enter_copyin {copyin : Copyin} {j : Nat} (found : call.copyin[j]? = some copyin)
    (ways : List Way) :
    call.json.follow (.key "copyin" :: .item j :: .key "arg" :: ways) =
      copyin.arg.json.follow ways := by
  have copyins : call.json.enter (.key "copyin") =
      some (.array (call.copyin.map Copyin.json)) := rfl
  rw [follow_cons, copyins, Option.bind_some, follow_cons, enter_item, found]
  rfl

end Reading

/-- The JSON of a program can be read by key if it has no checksum, and only then: no object repeats a
key, and of every argument the kind is found. -/
theorem json_read_by_key (program : Program) :
    (program.json.DistinctKeys ↔ ∀ arg ∈ program.arguments, arg.kind ≠ .checksum) ∧
    (∀ (i j : Nat) (call : Call) (arg : Arg), program.calls[i]? = some call →
      call.args[j]? = some arg →
      program.json.follow [.key "calls", .item i, .key "args", .item j, .key "kind"] =
        some (.string arg.lastKind) ∧ (arg.lastKind = arg.kind.name ↔ arg.kind ≠ .checksum)) ∧
    ∀ (i j : Nat) (call : Call) (copyin : Copyin), program.calls[i]? = some call →
      call.copyin[j]? = some copyin →
      program.json.follow
          [.key "calls", .item i, .key "copyin", .item j, .key "arg", .key "kind"] =
        some (.string copyin.arg.lastKind) ∧
      (copyin.arg.lastKind = copyin.arg.kind.name ↔ copyin.arg.kind ≠ .checksum) := by
  have read (arg : Arg) : arg.json.follow [.key "kind"] = some (.string arg.lastKind) := by
    rw [follow_cons, arg.enter_kind]
    rfl
  refine ⟨program.distinctKeys_json, ?_, ?_⟩
  · intro i j call arg there found
    rw [Program.enter_call there, Call.enter_arg found]
    exact ⟨read arg, arg.lastKind_eq_iff⟩
  · intro i j call copyin there found
    rw [Program.enter_call there, Call.enter_copyin found]
    exact ⟨read copyin.arg, copyin.arg.lastKind_eq_iff⟩

theorem json_read_by_key_samples :
    sampleProgram.json.DistinctKeys ∧
    sampleProgram.json.follow [.key "calls", .item 0, .key "args", .item 0, .key "kind"] =
      some (.string "result") ∧
    ¬ checksumProgram.json.DistinctKeys ∧
    checksumProgram.json.follow
        [.key "calls", .item 0, .key "copyin", .item 0, .key "arg", .key "kind"] =
      some (.string "inet") := by
  refine ⟨?_, ?_, ?_, ?_⟩
  · exact (json_read_by_key sampleProgram).1.mpr (by decide)
  · exact ((json_read_by_key sampleProgram).2.1 0 0 _ _ rfl rfl).1
  · rw [(json_read_by_key checksumProgram).1]
    decide
  · exact ((json_read_by_key checksumProgram).2.2 0 0 _ _ rfl rfl).1

end SyscallStream
