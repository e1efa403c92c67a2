import SyscallStream.Variables

/-! The variable table as a replay of writes. Its length is one more than the highest index
written, a slot holds what was written to it last, and a slot in between holds zero. -/

namespace SyscallStream

def tableSize : List UInt64 → Nat
  | [] => 0
  | index :: indices => max (index.toNat + 1) (tableSize indices)

def lastWrite (writes : List (UInt64 × UInt64)) (slot : Nat) : UInt64 :=
  ((writes.filter fun write => write.1.toNat = slot).getLast?.map Prod.snd).getD 0

def replay (writes : List (UInt64 × UInt64)) : List UInt64 :=
  (List.range (tableSize (writes.map Prod.fst))).map (lastWrite writes)

theorem tableSize_le_iff {indices : List UInt64} {size : Nat} :
    tableSize indices ≤ size ↔ ∀ index ∈ indices, index.toNat < size := by
  induction indices with
  | nil => simp [tableSize]
  | cons index indices ih =>
    rw [tableSize, Nat.max_le, ih, List.forall_mem_cons]
    rfl

theorem lt_tableSize {indices : List UInt64} {index : UInt64} (member : index ∈ indices) :
    index.toNat < tableSize indices :=
  tableSize_le_iff.mp (Nat.le_refl _) index member

theorem tableSize_mono {front back : List UInt64} (subset : ∀ index ∈ front, index ∈ back) :
    tableSize front ≤ tableSize back :=
  tableSize_le_iff.mpr fun index member => lt_tableSize (subset index member)

theorem tableSize_congr {front back : List UInt64}
    (same : ∀ index, index ∈ front ↔ index ∈ back) : tableSize front = tableSize back :=
  Nat.le_antisymm (tableSize_mono fun index => (same index).mp)
    (tableSize_mono fun index => (same index).mpr)

theorem tableSize_append (front back : List UInt64) :
    tableSize (front ++ back) = max (tableSize front) (tableSize back) := by
  induction front with
  | nil => rw [List.nil_append, tableSize, Nat.zero_max]
  | cons index front ih => rw [List.cons_append, tableSize, ih, tableSize, Nat.max_assoc]

theorem exists_mem_tableSize {indices : List UInt64} (some : indices ≠ []) :
    ∃ index ∈ indices, tableSize indices = index.toNat + 1 := by
  induction indices with
  | nil => exact absurd rfl some
  | cons index indices ih =>
    by_cases lower : tableSize indices ≤ index.toNat + 1
    · exact ⟨index, List.mem_cons_self, Nat.max_eq_left lower⟩
    · have rest : indices ≠ [] := by
        intro equal
        subst equal
        exact lower (Nat.zero_le _)
      rcases ih rest with ⟨highest, member, size⟩
      refine ⟨highest, List.mem_cons_of_mem index member, ?_⟩
      rw [tableSize, Nat.max_eq_right (by omega), size]

theorem exists_highest {front back : List UInt64} (same : tableSize front = tableSize back)
    (some : back ≠ []) : ∃ highest ∈ front, ∀ index ∈ back, index ≤ highest := by
  have nonempty : front ≠ [] := by
    intro none
    rcases List.exists_mem_of_ne_nil _ some with ⟨index, member⟩
    have above := lt_tableSize member
    rw [← same, none] at above
    exact Nat.not_lt_zero _ above
  rcases exists_mem_tableSize nonempty with ⟨highest, member, size⟩
  refine ⟨highest, member, ?_⟩
  intro index referred
  have below := lt_tableSize referred
  rw [← same, size] at below
  exact UInt64.le_iff_toNat_le.mpr (Nat.le_of_lt_succ below)

/-- A part of some indices asks for the same size exactly if it has the highest of them. -/
theorem tableSize_eq_iff {front back : List UInt64} (subset : ∀ index ∈ front, index ∈ back) :
    tableSize front = tableSize back ↔
      back = [] ∨ ∃ highest ∈ front, ∀ index ∈ back, index ≤ highest := by
  constructor
  · intro same
    by_cases none : back = []
    · exact .inl none
    · exact .inr (exists_highest same none)
  · intro reached
    rcases reached with none | ⟨highest, member, above⟩
    · subst none
      rw [List.eq_nil_iff_forall_not_mem.mpr fun index member => nomatch subset index member]
    · apply Nat.le_antisymm (tableSize_mono subset)
      apply tableSize_le_iff.mpr
      intro index referred
      have order := UInt64.le_iff_toNat_le.mp (above index referred)
      exact Nat.lt_of_le_of_lt order (lt_tableSize member)

theorem lastWrite_append_singleton (writes : List (UInt64 × UInt64)) (index value : UInt64)
    (slot : Nat) : lastWrite (writes ++ [(index, value)]) slot =
      if index.toNat = slot then value else lastWrite writes slot := by
  rw [lastWrite, List.filter_append]
  by_cases here : index.toNat = slot
  · rw [List.filter_cons_of_pos (by simpa using here), if_pos here]
    simp
  · rw [List.filter_cons_of_neg (by simpa using here), if_neg here]
    simp [lastWrite]

theorem lastWrite_of_tableSize_le {writes : List (UInt64 × UInt64)} {slot : Nat}
    (beyond : tableSize (writes.map Prod.fst) ≤ slot) : lastWrite writes slot = 0 := by
  have none : writes.filter (fun write => write.1.toNat = slot) = [] := by
    rw [List.filter_eq_nil_iff]
    intro write member
    have lower := lt_tableSize (List.mem_map_of_mem (f := Prod.fst) member)
    simp only [decide_eq_true_eq]
    omega
  rw [lastWrite, none]
  rfl

theorem length_replay (writes : List (UInt64 × UInt64)) :
    (replay writes).length = tableSize (writes.map Prod.fst) := by
  rw [replay, List.length_map, List.length_range]

theorem getElem?_replay (writes : List (UInt64 × UInt64)) (slot : Nat) :
    (replay writes)[slot]? =
      if slot < tableSize (writes.map Prod.fst) then some (lastWrite writes slot) else none := by
  rw [replay, List.getElem?_map]
  by_cases inside : slot < tableSize (writes.map Prod.fst)
  · rw [List.getElem?_range inside, if_pos inside, Option.map_some]
  · rw [if_neg inside, List.getElem?_eq_none (by rw [List.length_range]; omega), Option.map_none]

theorem tableSize_append_singleton (indices : List UInt64) (index : UInt64) :
    tableSize (indices ++ [index]) = max (tableSize indices) (index.toNat + 1) := by
  rw [tableSize_append]
  rfl

theorem setSlot_replay (writes : List (UInt64 × UInt64)) (index value : UInt64) :
    (Variables.setSlot (replay writes).toArray index.toNat value).toList =
      replay (writes ++ [(index, value)]) := by
  apply List.ext_getElem?
  intro slot
  have size := length_replay writes
  rw [Array.getElem?_toList, Variables.getElem?_setSlot, getElem?_replay,
    lastWrite_append_singleton, List.map_append, List.map_singleton, tableSize_append_singleton]
  simp only [List.getElem?_toArray, List.size_toArray, getElem?_replay, size]
  by_cases here : slot = index.toNat
  · rw [if_pos here, if_pos (by omega), if_pos here.symm]
  · rw [if_neg here, if_neg (Ne.symm here)]
    by_cases inside : slot < tableSize (writes.map Prod.fst)
    · rw [if_pos inside, if_pos inside, if_pos (by omega)]
    · rw [if_neg inside, lastWrite_of_tableSize_le (by omega)]
      by_cases below : slot < index.toNat
      · rw [if_pos below, if_pos (by omega)]
      · rw [if_neg below, if_neg (by omega)]

namespace Variables

/-- Gives variables their values in order, without looking at the limit. -/
def putAll (vars : Variables) (writes : List (UInt64 × UInt64)) : Variables :=
  writes.foldl (fun vars write => vars.put write.1 write.2) vars

def mentionAll (vars : Variables) (indices : List UInt64) : Variables :=
  indices.foldl mention vars

theorem admits_iff {vars : Variables} {index : UInt64} :
    vars.admits index = true ↔ index < vars.limit := decide_eq_true_iff

@[simp]
theorem limit_put (vars : Variables) (index value : UInt64) :
    (vars.put index value).limit = vars.limit := rfl

@[simp]
theorem limit_mention (vars : Variables) (index : UInt64) :
    (vars.mention index).limit = vars.limit := rfl

@[simp]
theorem limit_putAll (vars : Variables) (writes : List (UInt64 × UInt64)) :
    (vars.putAll writes).limit = vars.limit := by
  induction writes generalizing vars with
  | nil => rfl
  | cons write writes ih => exact ih _

@[simp]
theorem limit_mentionAll (vars : Variables) (indices : List UInt64) :
    (vars.mentionAll indices).limit = vars.limit := by
  induction indices generalizing vars with
  | nil => rfl
  | cons index indices ih => exact ih _

theorem putAll_append (vars : Variables) (front back : List (UInt64 × UInt64)) :
    vars.putAll (front ++ back) = (vars.putAll front).putAll back :=
  List.foldl_append

theorem referenceAll_cons_of_lt {vars : Variables} {index : UInt64} (below : index < vars.limit)
    (indices : List UInt64) :
    vars.referenceAll (index :: indices) = (vars.mention index).referenceAll indices := by
  rw [referenceAll, List.foldlM_cons, reference, if_pos (admits_iff.mpr below)]
  rfl

theorem referenceAll_cons_of_not_lt {vars : Variables} {index : UInt64}
    (beyond : ¬ index < vars.limit) (indices : List UInt64) :
    vars.referenceAll (index :: indices) = .error (vars.refusal index) := by
  rw [referenceAll, List.foldlM_cons, reference, if_neg (mt admits_iff.mp beyond)]
  rfl

theorem referenceAll_eq_ok {vars after : Variables} {indices : List UInt64} :
    vars.referenceAll indices = .ok after ↔
      (∀ index ∈ indices, index < vars.limit) ∧ after = vars.mentionAll indices := by
  induction indices generalizing vars with
  | nil =>
    change Except.ok vars = .ok after ↔ _
    simp [mentionAll, eq_comm]
  | cons index indices ih =>
    rw [List.forall_mem_cons]
    by_cases below : index < vars.limit
    · rw [referenceAll_cons_of_lt below, ih]
      simp [below, mentionAll]
    · rw [referenceAll_cons_of_not_lt below]
      simp [below]

theorem referenceAll_error {vars : Variables} {indices : List UInt64} {error : DecodeError}
    (refused : vars.referenceAll indices = .error error) :
    ∃ index, error = vars.refusal index ∧ vars.limit ≤ index := by
  induction indices generalizing vars with
  | nil => cases refused
  | cons index indices ih =>
    by_cases below : index < vars.limit
    · rw [referenceAll_cons_of_lt below] at refused
      exact @ih (vars.mention index) refused
    · rw [referenceAll_cons_of_not_lt below] at refused
      exact ⟨index, (Except.error.inj refused).symm, UInt64.not_lt.mp below⟩

theorem close_eq_ok {vars : Variables} {slots : List UInt64} :
    vars.close = .ok slots ↔ vars.slots.size = vars.required.toNat ∧ slots = vars.slots.toList := by
  unfold close
  by_cases full : vars.slots.size = vars.required.toNat
  · simp [full, eq_comm]
  · simp [full]

/-- The table holds the replay of the writes, and the required size covers the indices. -/
structure Tracks (vars : Variables) (writes : List (UInt64 × UInt64))
    (indices : List UInt64) : Prop where
  slots : vars.slots.toList = replay writes
  required : vars.required.toNat = tableSize indices

namespace Tracks

variable {vars : Variables} {writes : List (UInt64 × UInt64)} {indices : List UInt64}

theorem empty (limit : UInt64) : Tracks (Variables.empty limit) [] [] := ⟨rfl, rfl⟩

theorem toNat_max_succ {required index limit : UInt64} (below : index < limit) :
    (max required (index + 1)).toNat = max required.toNat (index.toNat + 1) := by
  have bound := limit.toNat_lt
  have lower := UInt64.lt_iff_toNat_lt.mp below
  have one : (1 : UInt64).toNat = 1 := rfl
  have next : (index + 1).toNat = index.toNat + 1 := by
    rw [UInt64.toNat_add, one]
    omega
  change (if required ≤ index + 1 then index + 1 else required).toNat = _
  by_cases larger : required ≤ index + 1
  · have order := UInt64.le_iff_toNat_le.mp larger
    rw [if_pos larger]
    omega
  · have order := mt UInt64.le_iff_toNat_le.mpr larger
    rw [if_neg larger]
    omega

theorem mention (tracks : Tracks vars writes indices) {index : UInt64}
    (below : index < vars.limit) :
    Tracks (vars.mention index) writes (indices ++ [index]) where
  slots := tracks.slots
  required := by
    rw [tableSize_append_singleton, ← tracks.required]
    exact toNat_max_succ below

theorem put (tracks : Tracks vars writes indices) {index value : UInt64}
    (below : index < vars.limit) :
    Tracks (vars.put index value) (writes ++ [(index, value)]) (indices ++ [index]) where
  slots := by
    have same : vars.slots = (replay writes).toArray := by
      rw [← tracks.slots]
    rw [Variables.put, same]
    exact setSlot_replay writes index value
  required := (tracks.mention below).required

theorem mentionAll (tracks : Tracks vars writes indices) {more : List UInt64}
    (below : ∀ index ∈ more, index < vars.limit) :
    Tracks (vars.mentionAll more) writes (indices ++ more) := by
  induction more generalizing vars indices with
  | nil =>
    rw [List.append_nil]
    exact tracks
  | cons index more ih =>
    rw [List.forall_mem_cons] at below
    rw [List.append_cons]
    exact ih (tracks.mention below.1) below.2

theorem putAll (tracks : Tracks vars writes indices) {more : List (UInt64 × UInt64)}
    (below : ∀ write ∈ more, write.1 < vars.limit) :
    Tracks (vars.putAll more) (writes ++ more) (indices ++ more.map Prod.fst) := by
  induction more generalizing vars writes indices with
  | nil =>
    rw [List.map_nil, List.append_nil, List.append_nil]
    exact tracks
  | cons write more ih =>
    rw [List.forall_mem_cons] at below
    rw [List.map_cons, List.append_cons, List.append_cons indices]
    exact ih (tracks.put below.1) below.2

theorem size_slots (tracks : Tracks vars writes indices) :
    vars.slots.size = tableSize (writes.map Prod.fst) := by
  rw [← length_replay, ← tracks.slots]
  rfl

theorem close_eq_ok (tracks : Tracks vars writes indices) {slots : List UInt64} :
    vars.close = .ok slots ↔
      tableSize (writes.map Prod.fst) = tableSize indices ∧ slots = replay writes := by
  rw [Variables.close_eq_ok, tracks.required, tracks.slots, tracks.size_slots]

end Tracks

end Variables

end SyscallStream
