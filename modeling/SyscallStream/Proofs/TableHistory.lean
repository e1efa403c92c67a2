import SyscallStream.Proofs.Machine

/-! The variable table under any history of accesses, refused ones among them. It is a map in which
the last write wins: its length is one more than the highest index written, its required size one
more than the highest index of any access that was not refused, and only the order of the writes to
one variable matters. -/

namespace SyscallStream

inductive Access where
  | assign (index value : UInt64)
  | reference (index : UInt64)
  deriving DecidableEq, Repr

namespace Access

def index : Access → UInt64
  | .assign index _ => index
  | .reference index => index

def write? : Access → Option (UInt64 × UInt64)
  | .assign index value => some (index, value)
  | .reference _ => none

def assigns (index : UInt64) : Access → Bool
  | .assign other _ => decide (other = index)
  | .reference _ => false

def on (access : Access) (vars : Variables) : Except DecodeError Variables :=
  match access with
  | .assign index value => vars.assign index value
  | .reference index => vars.reference index

def inPlace : Access → Checked Unit
  | .assign index value => Machine.assign index value
  | .reference index => Machine.require index

def apply (access : Access) (vars : Variables) : Variables :=
  match access with
  | .assign index value => vars.put index value
  | .reference index => vars.mention index

end Access

def admitted (limit : UInt64) (accesses : List Access) : List Access :=
  accesses.filter fun access => access.index < limit

def written (limit : UInt64) (accesses : List Access) : List (UInt64 × UInt64) :=
  (admitted limit accesses).filterMap Access.write?

def Variables.accessed (vars : Variables) (access : Access) : Variables :=
  match access.on vars with
  | .ok next => next
  | .error _ => vars

def Variables.after (vars : Variables) (accesses : List Access) : Variables :=
  accesses.foldl Variables.accessed vars

def Machine.accessed (m : Machine) (access : Access) : Machine :=
  match access.inPlace m with
  | .ok _ next => next
  | .error _ next => next

def Machine.after (m : Machine) (accesses : List Access) : Machine :=
  accesses.foldl Machine.accessed m

section Step

variable {vars : Variables} {access : Access}

theorem Access.on_of_lt (below : access.index < vars.limit) :
    access.on vars = .ok (access.apply vars) := by
  cases access with
  | assign index value => exact if_pos (Variables.admits_iff.mpr below)
  | reference index => exact if_pos (Variables.admits_iff.mpr below)

theorem Access.on_of_not_lt (beyond : ¬ access.index < vars.limit) :
    access.on vars = .error (vars.refusal access.index) := by
  cases access with
  | assign index value => exact if_neg (mt Variables.admits_iff.mp beyond)
  | reference index => exact if_neg (mt Variables.admits_iff.mp beyond)

theorem Access.on_eq_error_iff :
    (∃ error, access.on vars = .error error) ↔ vars.limit ≤ access.index := by
  by_cases below : access.index < vars.limit
  · rw [on_of_lt below]
    exact iff_of_false nofun (UInt64.not_le.mpr below)
  · rw [on_of_not_lt below]
    exact iff_of_true ⟨_, rfl⟩ (UInt64.not_lt.mp below)

theorem Access.inPlace_eq (access : Access) (m : Machine) :
    access.inPlace m =
      match access.on m.vars with
      | .ok vars => .ok () { m with vars }
      | .error error => .error (.refused error) m := by
  by_cases below : access.index < m.vars.limit
  · rw [on_of_lt below]
    cases access with
    | assign index value => exact Machine.assign_of below
    | reference index => exact Machine.require_of below
  · rw [on_of_not_lt below]
    cases access with
    | assign index value => exact Machine.assign_refused below
    | reference index => exact Machine.bind_error (Machine.allow_refused below)

theorem Machine.accessed_eq (m : Machine) (access : Access) :
    m.accessed access = { m with vars := m.vars.accessed access } := by
  rw [accessed, access.inPlace_eq, Variables.accessed]
  cases access.on m.vars with
  | ok vars => rfl
  | error error => rfl

theorem Decoder.assign_eq (index value : UInt64) (s : State) :
    Decoder.assign index value s =
      match s.vars.assign index value with
      | .ok vars => .ok () { s with vars }
      | .error error => .error error s := by
  unfold Decoder.assign Variables.assign
  split <;> rfl

namespace Variables

theorem accessed_of_lt (below : access.index < vars.limit) :
    vars.accessed access = access.apply vars := by
  rw [accessed, Access.on_of_lt below]

theorem accessed_of_not_lt (beyond : ¬ access.index < vars.limit) :
    vars.accessed access = vars := by
  rw [accessed, Access.on_of_not_lt beyond]

@[simp]
theorem limit_accessed (vars : Variables) (access : Access) :
    (vars.accessed access).limit = vars.limit := by
  by_cases below : access.index < vars.limit
  · rw [accessed_of_lt below]
    cases access with
    | assign index value => rfl
    | reference index => rfl
  · rw [accessed_of_not_lt below]

theorem Tracks.apply {writes : List (UInt64 × UInt64)} {indices : List UInt64}
    (tracks : vars.Tracks writes indices) (below : access.index < vars.limit) :
    (access.apply vars).Tracks (writes ++ access.write?.toList) (indices ++ [access.index]) := by
  cases access with
  | assign index value => exact tracks.put below
  | reference index =>
    rw [Access.write?, Option.toList_none, List.append_nil]
    exact tracks.mention below

end Variables

end Step

section History

variable {limit : UInt64} {access : Access} {accesses other : List Access}

theorem admitted_cons_of_lt (below : access.index < limit) :
    admitted limit (access :: accesses) = access :: admitted limit accesses :=
  List.filter_cons_of_pos (decide_eq_true below)

theorem admitted_cons_of_not_lt (beyond : ¬ access.index < limit) :
    admitted limit (access :: accesses) = admitted limit accesses :=
  List.filter_cons_of_neg (by simpa using beyond)

theorem written_cons_of_lt (below : access.index < limit) :
    written limit (access :: accesses) = access.write?.toList ++ written limit accesses := by
  rw [written, admitted_cons_of_lt below, List.filterMap_cons]
  cases access with
  | assign index value => rfl
  | reference index => rfl

theorem written_cons_of_not_lt (beyond : ¬ access.index < limit) :
    written limit (access :: accesses) = written limit accesses := by
  rw [written, admitted_cons_of_not_lt beyond, written]

theorem mem_admitted :
    access ∈ admitted limit accesses ↔ access ∈ accesses ∧ access.index < limit := by
  rw [admitted, List.mem_filter, decide_eq_true_eq]

theorem mem_written {index value : UInt64} :
    (index, value) ∈ written limit accesses ↔ .assign index value ∈ admitted limit accesses := by
  rw [written, List.mem_filterMap]
  constructor
  · intro given
    rcases given with ⟨access, member, same⟩
    cases access with
    | assign own value =>
      cases same
      exact member
    | reference own => cases same
  · intro member
    exact ⟨.assign index value, member, rfl⟩

theorem written_subset :
    ∀ index ∈ (written limit accesses).map Prod.fst,
      index ∈ (admitted limit accesses).map Access.index := by
  intro index member
  rcases List.mem_map.mp member with ⟨⟨own, value⟩, write, rfl⟩
  exact List.mem_map.mpr ⟨.assign own value, mem_written.mp write, rfl⟩

theorem filter_written (limit index : UInt64) (accesses : List Access) :
    (written limit accesses).filter (fun write => write.1.toNat = index.toNat) =
      written limit (accesses.filter (Access.assigns index)) := by
  induction accesses with
  | nil => rfl
  | cons access accesses ih =>
    -- A refused access may still assign the variable, so it can be in the filtered list.
    by_cases below : access.index < limit
    · rw [written_cons_of_lt below, List.filter_append, ih]
      cases access with
      | assign own value =>
        by_cases same : own = index
        · subst same
          rw [List.filter_cons_of_pos (by simp [Access.assigns]), written_cons_of_lt below]
          simp [Access.write?]
        · have apart : own.toNat ≠ index.toNat := mt UInt64.toNat_inj.mp same
          rw [List.filter_cons_of_neg (by simpa [Access.assigns] using same)]
          simp [Access.write?, apart]
      | reference own => rfl
    · rw [written_cons_of_not_lt below, ih, List.filter_cons]
      split
      · rw [written_cons_of_not_lt below]
      · rfl

theorem lastWrite_written_congr {index : UInt64}
    (order : accesses.filter (Access.assigns index) = other.filter (Access.assigns index)) :
    lastWrite (written limit accesses) index.toNat =
      lastWrite (written limit other) index.toNat := by
  rw [lastWrite, lastWrite, filter_written, filter_written, order]

theorem tableSize_written_congr (perm : accesses.Perm other) :
    tableSize ((written limit accesses).map Prod.fst) =
      tableSize ((written limit other).map Prod.fst) := by
  apply tableSize_congr
  intro index
  exact (((perm.filter _).filterMap _).map _).mem_iff

theorem replay_written_congr (perm : accesses.Perm other)
    (order : ∀ index,
      accesses.filter (Access.assigns index) = other.filter (Access.assigns index)) :
    replay (written limit accesses) = replay (written limit other) := by
  have size := @tableSize_written_congr limit accesses other perm
  have bound : tableSize ((written limit accesses).map Prod.fst) ≤ UInt64.size :=
    tableSize_le_iff.mpr fun index _ => index.toNat_lt
  -- Slots of the table are words, so the order of the writes to each of them is given.
  rw [replay, replay, size]
  apply List.map_congr_left
  intro slot member
  rw [← size, List.mem_range] at member
  have word : (UInt64.ofNat slot).toNat = slot :=
    UInt64.toNat_ofNat_of_lt' (Nat.lt_of_lt_of_le member bound)
  rw [← word]
  exact lastWrite_written_congr (order (UInt64.ofNat slot))

namespace Variables

theorem limit_after (vars : Variables) (accesses : List Access) :
    (vars.after accesses).limit = vars.limit := by
  induction accesses generalizing vars with
  | nil => rfl
  | cons access accesses ih =>
    calc
      (vars.after (access :: accesses)).limit = (vars.accessed access).limit := ih _
      _ = vars.limit := limit_accessed vars access

theorem Tracks.after {vars : Variables} {writes : List (UInt64 × UInt64)} {indices : List UInt64}
    (tracks : vars.Tracks writes indices) (accesses : List Access) :
    (vars.after accesses).Tracks (writes ++ written vars.limit accesses)
      (indices ++ (admitted vars.limit accesses).map Access.index) := by
  induction accesses generalizing vars writes indices with
  | nil =>
    simp only [written, admitted, List.filter_nil, List.filterMap_nil, List.map_nil,
      List.append_nil]
    exact tracks
  | cons access accesses ih =>
    have onward := @ih (vars.accessed access)
    rw [limit_accessed] at onward
    by_cases below : access.index < vars.limit
    · rw [written_cons_of_lt below, admitted_cons_of_lt below, List.map_cons, List.append_cons,
        ← List.append_assoc]
      apply onward
      rw [accessed_of_lt below]
      exact tracks.apply below
    · rw [written_cons_of_not_lt below, admitted_cons_of_not_lt below]
      apply onward
      rw [accessed_of_not_lt below]
      exact tracks

theorem Tracks.unique {vars twin : Variables} {writes others : List (UInt64 × UInt64)}
    {indices further : List UInt64} (first : vars.Tracks writes indices)
    (second : twin.Tracks others further) (table : replay writes = replay others)
    (size : tableSize indices = tableSize further) (limit : vars.limit = twin.limit) :
    vars = twin := by
  have slots : vars.slots = twin.slots := by
    apply Array.toList_inj.mp
    rw [first.slots, second.slots, table]
  have required : vars.required = twin.required := by
    apply UInt64.toNat_inj.mp
    rw [first.required, second.required, size]
  cases vars
  cases twin
  simp_all

end Variables

theorem tracks_history (limit : UInt64) (accesses : List Access) :
    ((Variables.empty limit).after accesses).Tracks (written limit accesses)
      ((admitted limit accesses).map Access.index) :=
  (Variables.Tracks.empty limit).after accesses

theorem Machine.after_eq (m : Machine) (accesses : List Access) :
    m.after accesses = { m with vars := m.vars.after accesses } := by
  induction accesses generalizing m with
  | nil => rfl
  | cons access accesses ih =>
    calc
      m.after (access :: accesses) = (m.accessed access).after accesses := rfl
      _ = { m with vars := (m.vars.accessed access).after accesses } := by rw [ih, accessed_eq]

/-- Only the order of the writes to one variable matters. -/
theorem after_eq_of_perm (limit : UInt64) (perm : accesses.Perm other)
    (order : ∀ index,
      accesses.filter (Access.assigns index) = other.filter (Access.assigns index)) :
    (Variables.empty limit).after accesses = (Variables.empty limit).after other := by
  have size : tableSize ((admitted limit accesses).map Access.index) =
      tableSize ((admitted limit other).map Access.index) :=
    tableSize_congr fun index => ((perm.filter _).map _).mem_iff
  have bound : ((Variables.empty limit).after accesses).limit =
      ((Variables.empty limit).after other).limit := by
    rw [Variables.limit_after, Variables.limit_after]
  exact (tracks_history limit accesses).unique (tracks_history limit other)
    (replay_written_congr perm order) size bound

theorem close_history (limit : UInt64) (accesses : List Access) :
    (∃ slots, ((Variables.empty limit).after accesses).close = .ok slots) ↔
      admitted limit accesses = [] ∨ ∃ highest value,
        .assign highest value ∈ admitted limit accesses ∧
          ∀ access ∈ admitted limit accesses, access.index ≤ highest := by
  have closes : (∃ slots, ((Variables.empty limit).after accesses).close = .ok slots) ↔
      tableSize ((written limit accesses).map Prod.fst) =
        tableSize ((admitted limit accesses).map Access.index) := by
    simp only [(tracks_history limit accesses).close_eq_ok, exists_and_left, exists_eq, and_true]
  rw [closes, tableSize_eq_iff written_subset, List.map_eq_nil_iff]
  simp only [List.forall_mem_map]
  constructor
  · intro reached
    rcases reached with none | ⟨highest, member, above⟩
    · exact .inl none
    · rcases List.mem_map.mp member with ⟨⟨own, value⟩, write, rfl⟩
      exact .inr ⟨own, value, mem_written.mp write, above⟩
  · intro reached
    rcases reached with none | ⟨highest, value, member, above⟩
    · exact .inl none
    · have write := mem_written.mpr member
      exact .inr ⟨highest, List.mem_map.mpr ⟨(highest, value), write, rfl⟩, above⟩

end History

/-- After any accesses the table holds what was written last. An access is refused exactly if its
index is not below the limit, and then it changes nothing, also where machine and decoder work in
place. The length is one more than the highest index written, the required size one more than the
highest index not refused. Any order of the accesses that keeps the writes to each variable in order
leaves the same table, and it can be closed exactly if the highest of its indices was written. -/
theorem table_of_history (limit : UInt64) (accesses : List Access) (vars : Variables)
    (reached : (Variables.empty limit).after accesses = vars) :
    (∀ access : Access, (∃ error, access.on vars = .error error) ↔ limit ≤ access.index) ∧
      (∀ m : Machine, m.vars = .empty limit → m.after accesses = { m with vars }) ∧
      (∀ (access : Access) (m : Machine), m.vars = vars →
        access.inPlace m =
          match access.on vars with
          | .ok next => .ok () { m with vars := next }
          | .error error => .error (.refused error) m) ∧
      (∀ (index value : UInt64) (s : State), s.vars = vars →
        Decoder.assign index value s =
          match vars.assign index value with
          | .ok next => .ok () { s with vars := next }
          | .error error => .error error s) ∧
      vars.slots.size ≤ vars.required.toNat ∧ vars.required ≤ limit ∧
      vars.slots.size = tableSize ((written limit accesses).map Prod.fst) ∧
      vars.required.toNat = tableSize ((admitted limit accesses).map Access.index) ∧
      (∀ slot, vars.slots[slot]? =
        if slot < vars.slots.size then some (lastWrite (written limit accesses) slot) else none) ∧
      (∀ other : List Access, accesses.Perm other →
        (∀ index, accesses.filter (Access.assigns index) = other.filter (Access.assigns index)) →
        (Variables.empty limit).after other = vars) ∧
      ((∃ slots, vars.close = .ok slots) ↔
        admitted limit accesses = [] ∨ ∃ highest value,
          .assign highest value ∈ admitted limit accesses ∧
            ∀ access ∈ admitted limit accesses, access.index ≤ highest) := by
  subst reached
  have tracks := tracks_history limit accesses
  have bound : ((Variables.empty limit).after accesses).limit = limit :=
    Variables.limit_after _ accesses
  refine ⟨?_, ?_, ?_, ?_, ?_, ?_, tracks.size_slots, tracks.required, ?_, ?_,
    close_history limit accesses⟩
  · intro access
    rw [Access.on_eq_error_iff, bound]
  · intro m fresh
    rw [m.after_eq, fresh]
  · intro access m same
    rw [access.inPlace_eq, same]
  · intro index value s same
    rw [Decoder.assign_eq, same]
  · rw [tracks.size_slots, tracks.required]
    exact tableSize_mono written_subset
  · rw [UInt64.le_iff_toNat_le, tracks.required, tableSize_le_iff, List.forall_mem_map]
    intro access member
    exact UInt64.lt_iff_toNat_lt.mp (mem_admitted.mp member).2
  · intro slot
    rw [← Array.getElem?_toList, tracks.slots, tracks.size_slots]
    exact getElem?_replay _ slot
  · intro other perm order
    exact (after_eq_of_perm limit perm order).symm

def sampleAccesses : List Access :=
  [.assign 1 5, .reference 0xffffffffffffffff, .assign 0 9, .reference 0xfffffffffffffffe,
    .assign 1 6]

/-- The same accesses in another order, with the writes to the second variable in place. -/
def reorderedAccesses : List Access :=
  [.reference 0xfffffffffffffffe, .assign 1 5, .assign 1 6, .assign 0 9,
    .reference 0xffffffffffffffff]

theorem table_of_history_sampleAccesses :
    (Variables.empty 0xffffffffffffffff).after sampleAccesses =
        ⟨#[9, 6], 0xffffffffffffffff, 0xffffffffffffffff⟩ ∧
      (Variables.empty 0xffffffffffffffff).after reorderedAccesses =
        ⟨#[9, 6], 0xffffffffffffffff, 0xffffffffffffffff⟩ ∧
      lastWrite (written 0xffffffffffffffff sampleAccesses) 1 = 6 := by
  have reached : (Variables.empty 0xffffffffffffffff).after sampleAccesses =
      ⟨#[9, 6], 0xffffffffffffffff, 0xffffffffffffffff⟩ := by decide +kernel
  have perm : sampleAccesses.Perm reorderedAccesses := by decide +kernel
  have order : ∀ index, sampleAccesses.filter (Access.assigns index) =
      reorderedAccesses.filter (Access.assigns index) := by
    intro index
    by_cases first : 0 = index
    · subst first
      rfl
    · simp [sampleAccesses, reorderedAccesses, List.filter_cons, Access.assigns, first]
  have table := table_of_history 0xffffffffffffffff sampleAccesses _ reached
  have slot := table.2.2.2.2.2.2.2.2.1 1
  have reordered := table.2.2.2.2.2.2.2.2.2.1 reorderedAccesses perm order
  exact ⟨reached, reordered, (Option.some.inj slot).symm⟩

end SyscallStream
