import Mathlib.Data.List.Basic
import SyscallStream.Catalog.Text
import SyscallStream.Proofs.Extension
import SyscallStream.Proofs.Lockstep

/-! Decoding against another catalog. What a stream means depends on the catalog only through the
words that it resolves: where another catalog resolves them too, the calls get its entries and
nothing else changes. -/

namespace SyscallStream

namespace Catalog

def Valid (catalog : Catalog) (word : UInt64) : Prop := ∃ syscall, catalog.Resolves word syscall

def id? (catalog : Catalog) (word : UInt64) : Option UInt64 :=
  (catalog.entry? word).map Syscall.id

theorem valid_iff {catalog : Catalog} {word : UInt64} :
    catalog.Valid word ↔ catalog.id? word = some word := by
  unfold Valid Resolves id?
  exact Option.map_eq_some_iff.symm

def counterpart (catalog : Catalog) (syscall : Syscall) : Syscall :=
  (catalog.entry? syscall.id).getD syscall

theorem counterpart_of_resolves {catalog : Catalog} {syscall other : Syscall}
    (resolves : catalog.Resolves syscall.id other) : catalog.counterpart syscall = other := by
  rw [counterpart, resolves.1, Option.getD_some]

theorem resolves_counterpart {catalog : Catalog} {syscall : Syscall}
    (valid : catalog.Valid syscall.id) :
    catalog.Resolves syscall.id (catalog.counterpart syscall) := by
  rcases valid with ⟨other, resolves⟩
  rw [counterpart_of_resolves resolves]
  exact resolves

end Catalog

def Call.rebind (call : Call) (catalog : Catalog) : Call :=
  { call with syscall := catalog.counterpart call.syscall }

def Program.rebind (program : Program) (catalog : Catalog) : Program :=
  { program with calls := program.calls.map (·.rebind catalog) }

theorem Program.encode_rebind {program : Program} {catalog : Catalog}
    (valid : ∀ call ∈ program.calls, catalog.Valid call.syscall.id) :
    (program.rebind catalog).encode = program.encode := by
  unfold Program.encode Program.rebind
  rw [List.flatMap_map]
  congr 1
  apply List.flatMap_congr
  intro call member
  have same : (catalog.counterpart call.syscall).id = call.syscall.id :=
    (Catalog.resolves_counterpart (valid call member)).2
  simp only [Call.encode, Call.rebind, same]

def DecodeError.recount (count : Nat) : DecodeError → DecodeError
  | .badSyscall index _ => .badSyscall index count
  | error => error

theorem DecodeError.recount_of_sizeless {error : DecodeError} (count : Nat)
    (sizeless : ∀ index size, error ≠ .badSyscall index size) : error.recount count = error := by
  cases error with
  | badSyscall index size => exact absurd rfl (sizeless index size)
  | _ => rfl

def Pending.rebind (pending : Pending) (catalog : Catalog) : Pending :=
  { pending with syscall? := pending.syscall?.map catalog.counterpart }

/-- The state of a run against another catalog, but for the log, which names the entries. -/
def State.rebind (s : State) (catalog : Catalog) : State :=
  { s with
    pending := s.pending.rebind catalog
    calls := s.calls.map (·.rebind catalog) }

theorem State.finish_rebind (s : State) (catalog : Catalog) :
    (s.rebind catalog).finish = s.finish.map (·.rebind catalog) := by
  unfold State.finish
  by_cases empty : s.pending.copyin.isEmpty && s.pending.copyout.isEmpty
  · have empty' : (s.rebind catalog).pending.copyin.isEmpty &&
        (s.rebind catalog).pending.copyout.isEmpty := empty
    have same : (s.rebind catalog).vars.close = s.vars.close := rfl
    rw [if_pos empty, if_pos empty', same]
    cases s.vars.close with
    | error error => rfl
    | ok vars => simp [Except.map, State.rebind, Program.rebind]
  · have empty' : ¬ ((s.rebind catalog).pending.copyin.isEmpty &&
        (s.rebind catalog).pending.copyout.isEmpty) := empty
    rw [if_neg empty, if_neg empty']
    rfl

theorem State.finish_error {s : State} {error : DecodeError} (refused : s.finish = .error error) :
    ∀ index count, error ≠ .badSyscall index count := by
  unfold State.finish Variables.close at refused
  grind

theorem State.rebind_initial (limits : Limits) (bytes : Bytes) (catalog : Catalog) :
    (State.initial limits bytes).rebind catalog = .initial limits bytes := by
  simp [State.rebind, Pending.rebind, State.initial]

/-- Runs against two catalogs: the same states but for the entries. -/
def catalogTie (first second : Catalog) (excused : DecodeError → Prop) :
    Tie DecodeError State DecodeError State where
  states _ s t := ∃ log, t = { s.rebind second with log }
  refusals e _ d _ := e = e.recount first.size ∧ d = e.recount second.size
  excused := excused
  anywhere state := state

namespace Decoder

variable {first second : Catalog} {excused : DecodeError → Prop} {before after : Phase}

theorem refusal_of_sizeless {error : DecodeError}
    (sizeless : ∀ index count, error ≠ .badSyscall index count) (s t : State) :
    (catalogTie first second excused).refusals error s error t :=
  ⟨(DecodeError.recount_of_sizeless _ sizeless).symm,
    (DecodeError.recount_of_sizeless _ sizeless).symm⟩

theorem assign_rebind (index value : UInt64) :
    (catalogTie first second excused).InStep before after Eq (assign index value)
      (assign index value) := by
  rintro s t ⟨log, rfl⟩
  by_cases below : s.vars.admits index
  · have below' : (s.rebind second).vars.admits index := below
    simp only [assign, below, below', if_true]
    exact .ok rfl ⟨log, rfl⟩
  · have below' : ¬ (s.rebind second).vars.admits index := below
    simp only [assign, below, below']
    exact .error (refusal_of_sizeless (fun _ _ same => by cases same) _ _)

theorem commit_rebind :
    (catalogTie first second excused).InStep before after Eq commit commit := by
  rintro s t ⟨log, rfl⟩
  cases known : s.pending.syscall? with
  | none =>
    have known' : (s.rebind second).pending.syscall? = none := by
      simp [State.rebind, Pending.rebind, known]
    simp only [commit, known, known']
    exact .ok rfl ⟨log, rfl⟩
  | some syscall =>
    have known' : (s.rebind second).pending.syscall? = some (second.counterpart syscall) := by
      simp [State.rebind, Pending.rebind, known]
    have same : (s.rebind second).vars.referenceAll (s.rebind second).pending.references =
        s.vars.referenceAll s.pending.references := rfl
    cases referred : s.vars.referenceAll s.pending.references with
    | error error =>
      simp only [commit, known, known', same, referred]
      rcases Variables.referenceAll_error referred with ⟨index, rfl, _⟩
      exact .error (refusal_of_sizeless (fun _ _ same => by cases same) _ _)
    | ok vars =>
      have grown : (s.rebind second).calls.push
            ((s.rebind second).pending.toCall (second.counterpart syscall)) =
          (s.calls.push (s.pending.toCall syscall)).map (·.rebind second) := by
        rw [Array.map_push]
        rfl
      simp only [commit, known, known', same, referred, grown]
      exact .ok rfl ⟨_, rfl⟩

theorem lookup_of_valid {word : UInt64} (valid : first.Valid word → second.Valid word) :
    (catalogTie first second fun _ => True).InStep before before
      (fun syscall other => other = second.counterpart syscall) (lookup first word)
      (lookup second word) := by
  intro s t state
  cases found : lookup first word s with
  | error error u => exact .excused trivial _
  | ok syscall u =>
    rcases lookup_eq_ok.mp found with ⟨resolves, rfl⟩
    rcases valid ⟨syscall, resolves⟩ with ⟨other, resolves'⟩
    rw [lookup_eq_ok.mpr ⟨resolves', rfl⟩]
    refine .ok ?_ state
    rw [← resolves.2] at resolves'
    exact (Catalog.counterpart_of_resolves resolves').symm

theorem lookup_of_ids {word : UInt64} (same : first.id? word = second.id? word) :
    (catalogTie first second excused).InStep before before
      (fun syscall other => other = second.counterpart syscall) (lookup first word)
      (lookup second word) := by
  unfold Catalog.id? at same
  cases found : first.entry? word with
  | none =>
    rw [found, Option.map_none, eq_comm, Option.map_eq_none_iff] at same
    simp only [lookup, found, same]
    exact .throw fun _ _ => ⟨rfl, rfl⟩
  | some syscall =>
    rw [found, Option.map_some, eq_comm, Option.map_eq_some_iff] at same
    rcases same with ⟨other, found', same⟩
    simp only [lookup, found, found', same]
    by_cases own : syscall.id = word
    · simp only [own, if_true]
      have resolves : second.Resolves syscall.id other := ⟨own ▸ found', same⟩
      exact .pure (Catalog.counterpart_of_resolves resolves).symm
    · simp only [own, if_false]
      exact .throw fun s t => refusal_of_sizeless (fun _ _ same => by cases same) s t

theorem steps_rebind
    (answers : ∀ word, ¬ IsMarker word → (catalogTie first second excused).InStep .idle .idle
      (fun syscall other => other = second.counterpart syscall) (lookup first word)
      (lookup second word)) :
    Steps.Tied (catalogTie first second excused)
      (fun syscall other => other = second.counterpart syscall) (steps first) (steps second) := by
  have place (phase : Phase) (s t : State)
      (state : (catalogTie first second excused).states phase s t) : s.cursor = t.cursor := by
    rcases state with ⟨log, rfl⟩
    rfl
  have moves (phase : Phase) (s t : State) (d : Cursor)
      (state : (catalogTie first second excused).states phase s t) :
      (catalogTie first second excused).states phase { s with cursor := d }
        { t with cursor := d } := by
    rcases state with ⟨log, rfl⟩
    exact ⟨log, rfl⟩
  have overflows (c : Cursor) (needed : Nat) (s t : State) :
      (catalogTie first second excused).refusals (c.overflow needed) s (c.overflow needed) t :=
    refusal_of_sizeless (fun _ _ same => by cases same) s t
  have change {before after : Phase} {update update' : State → State}
      (commutes : ∀ s log, update' { s.rebind second with log } =
        { (update s).rebind second with log }) :
      (catalogTie first second excused).InStep before after Eq (modify update : Decoder Unit)
        (modify update' : Decoder Unit) := by
    apply Tie.InStep.modify
    rintro s t ⟨log, rfl⟩
    exact ⟨log, commutes s log⟩
  constructor
  case word => exact fun phase => word_inStep (place phase) (moves phase) overflows
  case blob => exact fun phase size => blob_inStep (place phase) (moves phase) overflows size
  case reserve =>
    exact fun phase count => reserve_inStep (place phase) (moves phase) overflows count
  case refuse => exact fun _ _ _ sizeless => .throw (refusal_of_sizeless sizeless)
  case lookup => exact fun {word} plain => answers word plain
  case assign => exact fun _ index value => assign_rebind index value
  case commit => exact commit_rebind
  case start =>
    rintro syscall _ rfl index
    exact change fun _ _ => rfl
  case pushArg => exact fun _ => change fun _ _ => rfl
  case pushCopyin => exact fun _ => change fun _ _ => rfl
  case pushCopyout => exact fun _ => change fun _ _ => rfl
  case finished =>
    rintro s t ⟨log, rfl⟩
    exact .ok (Array.size_map).symm ⟨log, rfl⟩

end Decoder

section Verdicts

variable {first second : Catalog} {limits : Limits} {bytes : Bytes} {program : Program}

/-- Both verdicts, unless the first run was refused with an excuse. -/
theorem decode_rebind {excused : DecodeError → Prop}
    (answers : ∀ word, ¬ IsMarker word → (catalogTie first second excused).InStep .idle .idle
      (fun syscall other => other = second.counterpart syscall) (Decoder.lookup first word)
      (Decoder.lookup second word)) :
    (∀ program, decode first limits bytes = .ok program →
      decode second limits bytes = .ok (program.rebind second)) ∧
    ∀ error, decode first limits bytes = .error error →
      excused error ∨ error = error.recount first.size ∧
        decode second limits bytes = .error (error.recount second.size) := by
  by_cases small : bytes.length ≤ limits.maxBytes.toNat
  · have ends := Decoder.instructions_inStep (Decoder.steps_rebind answers)
      (.initial limits bytes) (.initial limits bytes)
      ⟨#[], by rw [State.rebind_initial, State.initial]⟩
    rw [decode_eq_verdict small, decode_eq_verdict small]
    generalize Decoder.instructions first (.initial limits bytes) = one at ends ⊢
    generalize Decoder.instructions second (.initial limits bytes) = two at ends ⊢
    cases ends with
    | @ok _ s _ t value state =>
      rcases state with ⟨log, rfl⟩
      have finished : verdict (.ok () { s.rebind second with log }) =
          s.finish.map (·.rebind second) := s.finish_rebind second
      rw [finished]
      change (∀ program, s.finish = .ok program → _) ∧ ∀ error, s.finish = .error error → _
      constructor
      · intro program accepted
        rw [accepted]
        rfl
      · intro error refused
        have sizeless := State.finish_error refused
        rw [DecodeError.recount_of_sizeless _ sizeless,
          DecodeError.recount_of_sizeless _ sizeless, refused]
        exact .inr ⟨rfl, rfl⟩
    | error refusal =>
      rcases refusal with ⟨count, rfl⟩
      constructor
      · intro program accepted
        cases accepted
      · intro error refused
        cases refused
        exact .inr ⟨count, rfl⟩
    | excused excuse =>
      constructor
      · intro program accepted
        cases accepted
      · intro error refused
        cases refused
        exact .inl excuse
  · rw [decode_too_large (by omega), decode_too_large (by omega)]
    constructor
    · intro program accepted
      cases accepted
    · intro error refused
      cases refused
      exact .inr ⟨rfl, rfl⟩

theorem decode_of_valid
    (valid : ∀ word, ¬ IsMarker word → first.Valid word → second.Valid word)
    (accepted : decode first limits bytes = .ok program) :
    decode second limits bytes = .ok (program.rebind second) :=
  (decode_rebind fun word plain => Decoder.lookup_of_valid (valid word plain)).1 program accepted

theorem error_of_ids (same : ∀ word, ¬ IsMarker word → first.id? word = second.id? word)
    {error : DecodeError} (refused : decode first limits bytes = .error error) :
    error = error.recount first.size ∧
      decode second limits bytes = .error (error.recount second.size) := by
  have verdicts := (@decode_rebind first second limits bytes (fun _ => False)
    fun word plain => Decoder.lookup_of_ids (same word plain)).2
  exact (verdicts error refused).resolve_left id

theorem valid_of_decode
    (valid : ∀ word, ¬ IsMarker word → first.Valid word → second.Valid word)
    (accepted : decode first limits bytes = .ok program) :
    ∀ call ∈ program.calls, second.Valid call.syscall.id := by
  intro call member
  rcases (wellFormed_of_decode accepted).syscalls call member with ⟨found, plain⟩
  exact valid _ plain ⟨call.syscall, found, rfl⟩

end Verdicts

inductive Table.Built : Table → Prop
  | descriptions {descriptions : List Description} {table : Table}
      (built : Table.ofDescriptions descriptions = .ok table) : Built table
  | text {text : String} {table : Table} (built : Table.ofText text = .ok table) : Built table
  | anonymous (size : Nat) : Built (.anonymous size)

namespace Table

theorem id?_of_descriptions {descriptions : List Description} {table : Table}
    (built : ofDescriptions descriptions = .ok table) (word : UInt64) :
    table.catalog.id? word = if word.toNat < table.size then some word else none := by
  unfold ofDescriptions at built
  split at built
  · cases built
  · cases built
    by_cases inside : word.toNat < descriptions.length
    · simp [Catalog.id?, catalog, entry?, size, Description.entry, inside]
    · simp [Catalog.id?, catalog, entry?, size, inside]

theorem id?_anonymous (count : Nat) (word : UInt64) :
    (anonymous count).catalog.id? word = if word.toNat < count then some word else none := by
  by_cases inside : word.toNat < count
  · simp [Catalog.id?, catalog, entry?, anonymous, placeholder, inside]
  · simp [Catalog.id?, catalog, entry?, anonymous, inside]

@[simp]
theorem size_anonymous (count : Nat) : (anonymous count).size = count := by
  simp [size, anonymous]

theorem Built.id? {table : Table} (built : table.Built) (word : UInt64) :
    table.catalog.id? word = if word.toNat < table.size then some word else none := by
  cases built with
  | descriptions built => exact id?_of_descriptions built word
  | text built =>
    unfold ofText at built
    split at built
    · cases built
    · exact id?_of_descriptions built word
  | anonymous count => rw [size_anonymous, id?_anonymous]

/-- Tables of one size give the same verdicts, each with its own entries in the calls. -/
theorem Built.decode_of_size {table other : Table} (built : table.Built) (built' : other.Built)
    (size : table.size = other.size) (limits : Limits) (bytes : Bytes) :
    (∀ error, decode table.catalog limits bytes = .error error →
      decode other.catalog limits bytes = .error error) ∧
    ∀ program, decode table.catalog limits bytes = .ok program →
      decode other.catalog limits bytes = .ok (program.rebind other.catalog) := by
  have same (word : UInt64) (_ : ¬ IsMarker word) :
      table.catalog.id? word = other.catalog.id? word := by
    rw [built.id?, built'.id?, size]
  constructor
  · intro error refused
    rcases error_of_ids same refused with ⟨count, refused'⟩
    have sizes : table.catalog.size = other.catalog.size := size
    rw [refused', ← sizes, ← count]
  · intro program accepted
    refine decode_of_valid (fun word plain valid => ?_) accepted
    rw [Catalog.valid_iff] at valid ⊢
    rw [← same word plain, valid]

end Table

/-- Decoding depends on the catalog only through the words that it resolves. A catalog that resolves
more words accepts as much, with its own entries in the calls. A catalog with the same words at the
same places refuses the same streams with the same errors, but for the number of entries. So every
table may be exchanged for placeholders. -/
theorem decode_against_other (limits : Limits) (bytes : Bytes) :
    (∀ first second : Catalog,
      (∀ word, ¬ IsMarker word → first.Valid word → second.Valid word) →
      ∀ program, decode first limits bytes = .ok program →
        decode second limits bytes = .ok (program.rebind second) ∧
        (∀ call ∈ program.calls,
          second.Resolves call.syscall.id (call.rebind second).syscall) ∧
        (program.rebind second).vars = program.vars ∧
        (program.rebind second).encode = program.encode) ∧
    (∀ first second : Catalog,
      (∀ word, ¬ IsMarker word → first.id? word = second.id? word) →
      ((∃ error, decode first limits bytes = .error error) ↔
        ∃ error, decode second limits bytes = .error error) ∧
      ∀ error, decode first limits bytes = .error error →
        error = error.recount first.size ∧
        decode second limits bytes = .error (error.recount second.size)) ∧
    ∀ table : Table, table.Built →
      (∀ error, decode (Table.anonymous table.size).catalog limits bytes = .error error ↔
        decode table.catalog limits bytes = .error error) ∧
      (∀ program, decode (Table.anonymous table.size).catalog limits bytes = .ok program →
        decode table.catalog limits bytes = .ok (program.rebind table.catalog)) ∧
      ∀ program, decode table.catalog limits bytes = .ok program →
        decode (Table.anonymous table.size).catalog limits bytes =
          .ok (program.rebind (Table.anonymous table.size).catalog) := by
  refine ⟨?_, ?_, ?_⟩
  · intro first second valid program accepted
    have calls := valid_of_decode valid accepted
    refine ⟨decode_of_valid valid accepted, ?_, rfl, Program.encode_rebind calls⟩
    intro call member
    exact Catalog.resolves_counterpart (calls call member)
  · intro first second same
    have same' : ∀ word, ¬ IsMarker word → second.id? word = first.id? word :=
      fun word plain => (same word plain).symm
    refine ⟨⟨?_, ?_⟩, fun error => error_of_ids same⟩
    · rintro ⟨error, refused⟩
      exact ⟨_, (error_of_ids same refused).2⟩
    · rintro ⟨error, refused⟩
      exact ⟨_, (error_of_ids same' refused).2⟩
  · intro table built
    have forth := (Table.Built.anonymous table.size).decode_of_size built
      (Table.size_anonymous table.size) limits bytes
    have back := built.decode_of_size (.anonymous table.size)
      (Table.size_anonymous table.size).symm limits bytes
    exact ⟨fun error => ⟨forth.1 error, back.1 error⟩, forth.2, back.2⟩

/-- The sample catalog with other names, and one that tells another size. -/
theorem decode_against_other_samples :
    decode sampleCatalog {} scrambledStream = .ok sampleProgram ∧
      decode (Table.anonymous 2).catalog {} scrambledStream =
        .ok (sampleProgram.rebind (Table.anonymous 2).catalog) ∧
      decode sampleCatalog {} (encodeWords [7]) = .error (.badSyscall 7 1) ∧
      decode { sampleCatalog with size := 5 } {} (encodeWords [7]) = .error (.badSyscall 7 5) ∧
      decode (Table.anonymous 1).catalog {} (encodeWords [7]) = .error (.badSyscall 7 1) := by
  have accepted : decode sampleCatalog {} scrambledStream = .ok sampleProgram := by
    decide +kernel
  have refused : decode sampleCatalog {} (encodeWords [7]) = .error (.badSyscall 7 1) := by
    decide +kernel
  have built : Table.ofDescriptions [.plain "openat"] =
      .ok ⟨#[⟨0, 0, "openat", "openat"⟩]⟩ := by
    decide +kernel
  have valid (word : UInt64) (_ : ¬ IsMarker word) (valid : sampleCatalog.Valid word) :
      (Table.anonymous 2).catalog.Valid word := by
    rcases valid with ⟨syscall, found, own⟩
    have zero : word = 0 := by
      by_contra other
      simp [sampleCatalog, other] at found
    rw [zero, Catalog.valid_iff, Table.id?_anonymous]
    rfl
  refine ⟨accepted, ?_, refused, ?_, ?_⟩
  · exact ((decode_against_other {} scrambledStream).1 _ _ valid _ accepted).1
  · exact (((decode_against_other {} (encodeWords [7])).2.1 sampleCatalog
      { sampleCatalog with size := 5 } fun _ _ => rfl).2 _ refused).2
  · have refused' : decode (Table.mk #[⟨0, 0, "openat", "openat"⟩]).catalog {} (encodeWords [7]) =
        .error (.badSyscall 7 1) := by
      decide +kernel
    exact (((decode_against_other {} (encodeWords [7])).2.2 _ (.descriptions built)).1 _).mpr
      refused'

end SyscallStream
