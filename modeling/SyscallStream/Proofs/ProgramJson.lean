import SyscallStream.Cli.Run
import SyscallStream.Proofs.JsonText
import SyscallStream.Proofs.Unambiguous

/-! Programs as JSON. The text tells everything of a program except what its calls take from the
catalog besides a name, in either layout. -/

namespace SyscallStream

namespace Json

@[simp]
theorem nat_inj {m n : Nat} : nat m = nat n ↔ m = n := by
  refine ⟨fun same => ?_, fun same => by rw [same]⟩
  simp only [nat, Number.ofNat, scalar.injEq, Scalar.number.injEq, Number.mk.injEq] at same
  exact toDigits_inj (by decide) (by decide) same.2.1

@[simp]
theorem word_inj {v w : UInt64} : word v = word w ↔ v = w := by
  simp only [word, nat_inj, UInt64.toNat_inj]

@[simp]
theorem string_inj {s t : String} : string s = string t ↔ s = t := by
  simp [string]

@[simp]
theorem bool_inj {b c : Bool} : bool b = bool c ↔ b = c := by
  simp [bool]

theorem plain_nat (n : Nat) : Plain (nat n) := .scalar (.nat n)

theorem plain_word (w : UInt64) : Plain (word w) := plain_nat w.toNat

theorem plain_string (s : String) : Plain (string s) := .scalar (.string s)

theorem plain_map {α : Type} {xs : List α} {json : α → Json} (each : ∀ x, Plain (json x)) :
    Plain (.array (xs.map json)) := by
  refine .array fun item member => ?_
  obtain ⟨x, -, rfl⟩ := List.mem_map.mp member
  exact each x

end Json

open Json

theorem Chunk.plain_json (chunk : Chunk) : Plain chunk.json := by
  refine .object ?_
  simp [plain_word]

theorem Arg.plain_json (arg : Arg) : Plain arg.json := by
  refine .object (List.forall_mem_cons.mpr ⟨plain_string _, ?_⟩)
  cases arg with
  | const arg => simp [members, ConstArg.members, plain_nat, plain_word]
  | result arg => simp [members, ResultArg.members, plain_nat, plain_word]
  | data arg =>
    simp only [members, DataArg.members, List.forall_mem_cons]
    exact ⟨plain_map fun b => plain_nat b.toNat, .scalar (.bool _), nofun⟩
  | checksum arg =>
    simp only [members, ChecksumArg.members, List.forall_mem_cons]
    exact ⟨plain_word _, plain_string _, plain_map Chunk.plain_json, nofun⟩

theorem Copyin.plain_json (copyin : Copyin) : Plain copyin.json := by
  refine .object ?_
  simp [plain_word, Arg.plain_json]

theorem Copyout.plain_json (copyout : Copyout) : Plain copyout.json := by
  refine .object ?_
  simp [plain_word]

theorem Call.plain_json (call : Call) : Plain call.json := by
  refine .object ?_
  simp only [List.forall_mem_cons]
  exact ⟨plain_string _, plain_word _, plain_map Arg.plain_json, plain_map Copyin.plain_json,
    plain_map Copyout.plain_json, nofun⟩

theorem Program.plain_json (program : Program) : Plain program.json := by
  refine .object ?_
  simp only [List.forall_mem_cons]
  exact ⟨plain_map Call.plain_json, plain_map plain_word, nofun⟩

theorem ConstArg.members_injective : Function.Injective ConstArg.members := by
  rintro ⟨size, ⟨format⟩, value, offset, length, stride⟩
    ⟨size', ⟨format'⟩, value', offset', length', stride'⟩ same
  simpa [members, UInt8.toNat_inj, UInt32.toNat_inj] using same

theorem ResultArg.members_injective : Function.Injective ResultArg.members := by
  rintro ⟨size, ⟨format⟩, index, divOp, addOp, fallback⟩
    ⟨size', ⟨format'⟩, index', divOp', addOp', fallback'⟩ same
  simpa [members, UInt8.toNat_inj] using same

theorem DataArg.members_injective : Function.Injective DataArg.members := by
  have bytes : Function.Injective fun b : UInt8 => Json.nat b.toNat := fun a b same =>
    UInt8.toNat_inj.mp (nat_inj.mp same)
  rintro ⟨data, readable⟩ ⟨data', readable'⟩ same
  simpa [members, (List.map_injective_iff.mpr bytes).eq_iff] using same

theorem Chunk.json_injective : Function.Injective Chunk.json := by
  rintro ⟨⟨kind⟩, value, size⟩ ⟨⟨kind'⟩, value', size'⟩ same
  simpa [json] using same

theorem ChecksumArg.members_injective : Function.Injective ChecksumArg.members := by
  rintro ⟨size, ⟨⟩, chunks⟩ ⟨size', ⟨⟩, chunks'⟩ same
  simpa [members, (List.map_injective_iff.mpr Chunk.json_injective).eq_iff] using same

theorem ArgKind.name_injective : Function.Injective ArgKind.name := by
  intro a b same
  cases a <;> cases b <;> first | rfl | exact absurd same (by decide)

/-- The kind comes first, so the members behind it are compared only within a kind. -/
theorem Arg.json_injective : Function.Injective Arg.json := by
  intro a b same
  simp only [json, Json.object.injEq, List.cons.injEq, Prod.mk.injEq, string_inj, true_and] at same
  obtain ⟨names, members⟩ := same
  have kinds := ArgKind.name_injective names
  cases a with
  | const a =>
    cases b with
    | const b => exact congrArg Arg.const (ConstArg.members_injective members)
    | result | data | checksum => cases kinds
  | result a =>
    cases b with
    | result b => exact congrArg Arg.result (ResultArg.members_injective members)
    | const | data | checksum => cases kinds
  | data a =>
    cases b with
    | data b => exact congrArg Arg.data (DataArg.members_injective members)
    | const | result | checksum => cases kinds
  | checksum a =>
    cases b with
    | checksum b => exact congrArg Arg.checksum (ChecksumArg.members_injective members)
    | const | result | data => cases kinds

theorem Copyin.json_injective : Function.Injective Copyin.json := by
  rintro ⟨addr, arg⟩ ⟨addr', arg'⟩ same
  simpa [json, Arg.json_injective.eq_iff] using same

theorem Copyout.json_injective : Function.Injective Copyout.json := by
  rintro ⟨index, addr, size⟩ ⟨index', addr', size'⟩ same
  simpa [json] using same

def Call.named (call : Call) : Call :=
  { call with syscall := ⟨0, 0, call.syscall.name, ""⟩ }

theorem Call.json_eq_iff {call other : Call} :
    call.json = other.json ↔ call.named = other.named := by
  simp [json, named, (List.map_injective_iff.mpr Arg.json_injective).eq_iff,
    (List.map_injective_iff.mpr Copyin.json_injective).eq_iff,
    (List.map_injective_iff.mpr Copyout.json_injective).eq_iff]

theorem Call.map_json_eq_iff {calls others : List Call} :
    calls.map Call.json = others.map Call.json ↔ calls.map Call.named = others.map Call.named := by
  induction calls generalizing others with
  | nil => simp
  | cons call calls ih =>
    cases others with
    | nil => simp
    | cons other others => simp only [List.map_cons, List.cons.injEq, json_eq_iff, ih]

theorem Program.json_eq_iff {program other : Program} :
    program.json = other.json ↔
      program.vars = other.vars ∧ program.calls.map Call.named = other.calls.map Call.named := by
  have vars : Function.Injective Json.word := fun _ _ => word_inj.mp
  simp only [json, Json.object.injEq, List.cons.injEq, Prod.mk.injEq, Json.array.injEq,
    Call.map_json_eq_iff, (List.map_injective_iff.mpr vars).eq_iff, true_and, and_true]
  exact and_comm

/-- The compact text of a program tells its variables and its calls up to the catalog, and the
layout that the command line prints is the compact one with blanks outside of string literals. -/
theorem json_lossless (first second : Program) :
    (first.json.compact = second.json.compact ↔
      first.vars = second.vars ∧ first.calls.map Call.named = second.calls.map Call.named) ∧
    withoutBlanks first.json.pretty = first.json.compact ∧
    ∀ options : Cli.Options, options.json = true →
      Cli.printed options first = first.json.pretty ++ "\n" ∧
        withoutBlanks (Cli.printed options first) = first.json.compact := by
  refine ⟨?_, ?_, fun options wanted => ?_⟩
  · rw [first.plain_json.compact_inj second.plain_json, Program.json_eq_iff]
  · have bare := first.plain_json.withoutBlanks_pretty "" blank_nil
    rw [String.append_empty] at bare
    exact bare
  · have shown : Cli.printed options first = first.json.pretty ++ "\n" := if_pos wanted
    rw [shown]
    exact ⟨rfl, first.plain_json.withoutBlanks_pretty "\n" (List.forall_mem_singleton.mpr rfl)⟩

theorem json_lossless_refusedCall :
    let first : Program := ⟨[refusedCall "read\"\x7d, \\ ["], [7]⟩
    let second : Program := ⟨[refusedCall "read\"\x7d,\\ ["], [7]⟩
    let options : Cli.Options := ⟨"prog", none, 4096, true, 2097152, 65536⟩
    first.json.compact ≠ second.json.compact ∧ options.json = true ∧
      withoutBlanks (Cli.printed options first) = first.json.compact := by
  intro first second options
  have lossless := json_lossless first second
  have apart : first.calls.map Call.named ≠ second.calls.map Call.named := by decide
  exact ⟨fun same => apart (lossless.1.mp same).2, rfl, (lossless.2.2 options rfl).2⟩

end SyscallStream
