import SyscallStream.Proofs.Rebinding
import SyscallStream.Proofs.Refusals

/-! Tables of syscalls keep what the decoder expects of a catalog. Every entry carries its own
position, so no word of a stream selects an entry that carries another one. -/

namespace SyscallStream

namespace Description

def IsBase (base name : String) : Prop :=
  '$' ∉ base.toList ∧ (name = base ∨ ∃ rest, name = base ++ "$" ++ rest)

inductive Describes : Description → Syscall → Prop
  | plain {id : UInt64} {name callName : String} (base : IsBase callName name) :
      Describes (.plain name) ⟨id, 0, name, callName⟩
  | unnamed {id nr : UInt64} {name callName : String} (base : IsBase callName name) :
      Describes (.full name none nr) ⟨id, nr, name, callName⟩
  | named {id nr : UInt64} {name callName : String} :
      Describes (.full name (some callName) nr) ⟨id, nr, name, callName⟩

theorem isBase_baseName (name : String) : IsBase (baseName name) name := by
  have front : ∀ c ∈ name.toList.takeWhile (· != '$'), c ≠ '$' := by
    intro c member
    simpa using List.all_eq_true.mp (List.all_takeWhile (p := (· != '$'))) c member
  have parts := List.takeWhile_append_dropWhile (p := (· != '$')) (l := name.toList)
  constructor
  · rw [baseName, String.toList_ofList]
    intro dollar
    exact front '$' dollar rfl
  · cases behind : name.toList.dropWhile (· != '$') with
    | nil =>
      apply Or.inl
      rw [behind, List.append_nil] at parts
      rw [baseName, parts, String.ofList_toList]
    | cons c rest =>
      have dollar : c = '$' := by
        have stop := List.head?_dropWhile_not (· != '$') name.toList
        rw [behind] at stop
        simpa using stop
      refine .inr ⟨String.ofList rest, ?_⟩
      rw [behind, dollar] at parts
      rw [← String.toList_inj]
      simp only [baseName, String.toList_append, String.toList_ofList, List.append_assoc]
      exact parts.symm

theorem describes_entry (position : Nat) (description : Description) :
    description.Describes (description.entry position) := by
  cases description with
  | plain name => exact .plain (isBase_baseName name)
  | full name callName? nr =>
    cases callName? with
    | none => exact .unnamed (isBase_baseName name)
    | some callName => exact .named

end Description

namespace Table

variable {descriptions : List Description} {table : Table}

theorem ofDescriptions_cases (descriptions : List Description) :
    (∃ front empty back, descriptions = front ++ empty :: back ∧ empty.name = "" ∧
      (∀ earlier ∈ front, earlier.name ≠ "") ∧
      ofDescriptions descriptions = .error (.emptyName front.length)) ∨
    (∀ description ∈ descriptions, description.name ≠ "") ∧
      ofDescriptions descriptions = .ok ⟨(descriptions.mapIdx Description.entry).toArray⟩ := by
  unfold ofDescriptions
  cases found : descriptions.findIdx? (·.name.isEmpty) with
  | none =>
    refine .inr ⟨?_, rfl⟩
    intro description member empty
    have filled := List.findIdx?_eq_none_iff.mp found description member
    rw [empty] at filled
    cases filled
  | some position =>
    rcases List.findIdx?_eq_some_iff_getElem.mp found with ⟨inside, empty, earlier⟩
    refine .inl ⟨descriptions.take position, descriptions[position],
      descriptions.drop (position + 1), ?_, String.isEmpty_iff.mp empty, ?_, ?_⟩
    · rw [List.getElem_cons_drop, List.take_append_drop]
    · intro description member none
      rcases List.mem_iff_getElem.mp member with ⟨i, below, rfl⟩
      have before : i < position := by
        rw [List.length_take] at below
        omega
      apply earlier i before
      rw [List.getElem_take] at none
      exact String.isEmpty_iff.mpr none
    · rw [List.length_take, Nat.min_eq_left (Nat.le_of_lt inside)]

theorem eq_of_descriptions (built : ofDescriptions descriptions = .ok table) :
    table = ⟨(descriptions.mapIdx Description.entry).toArray⟩ := by
  rcases ofDescriptions_cases descriptions with ⟨_, _, _, _, _, _, refused⟩ | ⟨_, same⟩
  · rw [refused] at built
    cases built
  · rw [same] at built
    cases built
    rfl

def Numbered (table : Table) : Prop :=
  ∀ position entry, table.entries[position]? = some entry → entry.id = UInt64.ofNat position

theorem numbered_of_descriptions (built : ofDescriptions descriptions = .ok table) :
    table.Numbered := by
  intro position entry found
  rw [eq_of_descriptions built, List.getElem?_toArray, List.getElem?_mapIdx] at found
  rcases Option.map_eq_some_iff.mp found with ⟨description, _, rfl⟩
  rfl

theorem Built.numbered (built : table.Built) : table.Numbered := by
  cases built with
  | descriptions built => exact numbered_of_descriptions built
  | text built =>
    unfold ofText at built
    split at built
    · cases built
    · exact numbered_of_descriptions built
  | anonymous count =>
    intro position entry found
    rw [Table.anonymous, Array.getElem?_map] at found
    rcases Option.map_eq_some_iff.mp found with ⟨own, inside, rfl⟩
    rw [Array.getElem?_eq_some_iff] at inside
    rcases inside with ⟨_, rfl⟩
    rw [Array.getElem_range]
    rfl

theorem Built.entry?_of_lt (built : table.Built) {word : UInt64}
    (inside : word.toNat < table.size) :
    ∃ entry, table.entry? word = some entry ∧ entry.id = word := by
  have own := built.id? word
  rw [if_pos inside] at own
  exact Option.map_eq_some_iff.mp own

theorem entry?_of_le {word : UInt64} (outside : table.size ≤ word.toNat) :
    table.entry? word = none :=
  Array.getElem?_eq_none outside

/-- The entry that is found by name has the least word of all that have it. -/
theorem Numbered.find?_least (numbered : table.Numbered) {name : String} {entry : Syscall}
    (found : table.find? name = some entry) :
    entry ∈ table.entries ∧ entry.name = name ∧ ∀ word other, table.entry? word = some other →
      other.name = name → entry.id ≤ word := by
  rcases Array.find?_eq_some_iff_getElem.mp found with ⟨named, position, inside, rfl, earlier⟩
  refine ⟨Array.getElem_mem inside, by simpa using named, ?_⟩
  intro word other reached same
  have first : position ≤ word.toNat := by
    by_contra before
    have skipped := earlier word.toNat (by omega)
    rcases Array.getElem?_eq_some_iff.mp reached with ⟨_, rfl⟩
    simp [same] at skipped
  rw [numbered position _ (Array.getElem?_eq_getElem inside), UInt64.le_iff_toNat_le,
    UInt64.toNat_ofNat_of_lt' (Nat.lt_of_le_of_lt first word.toNat_lt)]
  exact first

theorem find?_eq_none {name : String} :
    table.find? name = none ↔ ∀ entry ∈ table.entries, entry.name ≠ name := by
  rw [find?, Array.find?_eq_none]
  simp

end Table

namespace Table.Built

variable {table : Table} {limits : Limits} {bytes : Bytes} {word : UInt64}

theorem decode_ne_idMismatch (built : table.Built) (other : UInt64) :
    decode table.catalog limits bytes ≠ .error (.idMismatch word other) := by
  intro refused
  obtain ⟨_, foreign, entry, found, rfl⟩ := meaning_of_decode refused nofun id
  rcases Nat.lt_or_ge word.toNat table.size with inside | outside
  · rcases built.entry?_of_lt inside with ⟨own, found', same⟩
    rw [Option.some.inj (found.symm.trans found')] at foreign
    exact foreign same
  · exact absurd (found.symm.trans (entry?_of_le outside)) nofun

theorem le_of_badSyscall (built : table.Built) {count : Nat}
    (refused : decode table.catalog limits bytes = .error (.badSyscall word count)) :
    count = table.size ∧ count ≤ word.toNat := by
  obtain ⟨_, missing, size⟩ := meaning_of_decode refused nofun id
  refine ⟨size, ?_⟩
  rcases Nat.lt_or_ge word.toNat table.size with inside | outside
  · rcases built.entry?_of_lt inside with ⟨own, found, _⟩
    exact absurd (missing.symm.trans found) nofun
  · rw [size]
    exact outside

end Table.Built

/-- Every table keeps the promises of a catalog. Descriptions make a table unless a name is empty,
with an entry for each of them in order. The words below the size of a table select their own
entries, a name selects the first entry that has it, and decoding finds a word without an entry only
beyond the table and a wrong entry never. -/
theorem table_lawful :
    (∀ descriptions : List Description,
      ((∃ error, Table.ofDescriptions descriptions = .error error) ↔
        ∃ description ∈ descriptions, description.name = "") ∧
      (∀ error, Table.ofDescriptions descriptions = .error error →
        ∃ front empty back, descriptions = front ++ empty :: back ∧ empty.name = "" ∧
          (∀ earlier ∈ front, earlier.name ≠ "") ∧ error = .emptyName front.length) ∧
      ∀ table, Table.ofDescriptions descriptions = .ok table →
        table.size = descriptions.length ∧
        ∀ position description, descriptions[position]? = some description →
          ∃ entry, table.entries[position]? = some entry ∧ entry.id = UInt64.ofNat position ∧
            description.Describes entry) ∧
    ∀ table : Table, table.Built →
      (∀ word : UInt64, word.toNat < table.size →
        ∃ entry, table.entry? word = some entry ∧ entry.id = word) ∧
      (∀ word : UInt64, table.size ≤ word.toNat → table.entry? word = none) ∧
      (∀ name entry, table.find? name = some entry → entry ∈ table.entries ∧ entry.name = name ∧
        ∀ word other, table.entry? word = some other → other.name = name → entry.id ≤ word) ∧
      (∀ name, table.find? name = none ↔ ∀ entry ∈ table.entries, entry.name ≠ name) ∧
      ∀ limits bytes,
        (∀ word id, decode table.catalog limits bytes ≠ .error (.idMismatch word id)) ∧
        ∀ word count, decode table.catalog limits bytes = .error (.badSyscall word count) →
          count = table.size ∧ count ≤ word.toNat := by
  constructor
  · intro descriptions
    rcases Table.ofDescriptions_cases descriptions with
      ⟨front, empty, back, split, none, earlier, refused⟩ | ⟨filled, built⟩
    · rw [refused]
      refine ⟨iff_of_true ⟨_, rfl⟩ ⟨empty, ?_, none⟩, ?_, nofun⟩
      · rw [split]
        exact List.mem_append_right _ List.mem_cons_self
      · rintro _ ⟨⟩
        exact ⟨front, empty, back, split, none, earlier, rfl⟩
    · rw [built]
      refine ⟨iff_of_false nofun ?_, nofun, ?_⟩
      · rintro ⟨description, member, none⟩
        exact filled description member none
      · rintro _ ⟨⟩
        refine ⟨by simp [Table.size], ?_⟩
        intro position description told
        refine ⟨description.entry position, ?_, rfl, description.describes_entry position⟩
        rw [List.getElem?_toArray, List.getElem?_mapIdx, told, Option.map_some]
  · intro table built
    exact ⟨fun _ => built.entry?_of_lt, fun _ => Table.entry?_of_le,
      fun _ _ => built.numbered.find?_least, fun _ => Table.find?_eq_none,
      fun _ _ => ⟨fun _ => built.decode_ne_idMismatch, fun _ _ => built.le_of_badSyscall⟩⟩

def sampleDescriptions : List Description :=
  [.plain "getpid", .full "openat$dir" none 257, .full "getpid" (some "gettid") 186]

def sampleTable : Table :=
  ⟨#[⟨0, 0, "getpid", "getpid"⟩, ⟨1, 257, "openat$dir", "openat"⟩, ⟨2, 186, "getpid", "gettid"⟩]⟩

/-- An empty name behind a good one, and a table with a variant and a name that comes twice. -/
theorem table_lawful_samples :
    (Table.ofDescriptions [.plain "getpid", .plain ""] = .error (.emptyName 1) ∧
      ∃ description ∈ [Description.plain "getpid", .plain ""], description.name = "") ∧
    (Table.ofDescriptions sampleDescriptions = .ok sampleTable ∧
      sampleTable.size = 3 ∧
      ∃ entry, sampleTable.entries[1]? = some entry ∧ entry.id = UInt64.ofNat 1 ∧
        Description.Describes (.full "openat$dir" none 257) entry) ∧
    ((∃ entry, sampleTable.entry? 2 = some entry ∧ entry.id = 2) ∧
      sampleTable.entry? 3 = none ∧
      sampleTable.find? "getpid" = some ⟨0, 0, "getpid", "getpid"⟩ ∧
      ∀ word other, sampleTable.entry? word = some other → other.name = "getpid" → 0 ≤ word) ∧
    decode sampleTable.catalog {} (encodeWords [7]) = .error (.badSyscall 7 3) ∧
      3 = sampleTable.size ∧ 3 ≤ (7 : UInt64).toNat := by
  have empty : Table.ofDescriptions [.plain "getpid", .plain ""] = .error (.emptyName 1) := by
    decide +kernel
  have built : Table.ofDescriptions sampleDescriptions = .ok sampleTable := by
    decide +kernel
  have first : sampleTable.find? "getpid" = some ⟨0, 0, "getpid", "getpid"⟩ := by
    decide +kernel
  have refused : decode sampleTable.catalog {} (encodeWords [7]) = .error (.badSyscall 7 3) := by
    decide +kernel
  have made := (table_lawful.1 sampleDescriptions).2.2 sampleTable built
  have laws := table_lawful.2 sampleTable (.descriptions built)
  refine ⟨⟨empty, (table_lawful.1 _).1.mp ⟨_, empty⟩⟩, ⟨built, made.1, made.2 1 _ rfl⟩, ?_, refused,
    ?_⟩
  · exact ⟨laws.1 2 (by decide), laws.2.1 3 (by decide), first, (laws.2.2.1 _ _ first).2.2⟩
  · exact (laws.2.2.2.2 {} (encodeWords [7])).2 7 3 refused

end SyscallStream
