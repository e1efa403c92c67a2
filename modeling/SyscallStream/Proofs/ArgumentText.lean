import SyscallStream.Program.Text
import SyscallStream.Proofs.Legible

/-! What the text of an argument tells. Its kind is seen from the first letters, and every field
ends where a word ends. Some data is not shown, and nothing else gets lost. -/

namespace SyscallStream

section Shown

/-- The place of a bit field without bits is not shown. -/
def ConstArg.shown (arg : ConstArg) : ConstArg :=
  if arg.bitfieldLength = 0 then { arg with bitfieldOffset := 0 } else arg

def ResultArg.shown (arg : ResultArg) : ResultArg := { arg with format := ⟨0⟩ }

def DataArg.shown (arg : DataArg) : DataArg :=
  { arg with bytes := arg.bytes.take 64 ++ List.replicate (arg.bytes.length - 64) 0 }

/-- An argument with zeros for what the listing does not show. -/
def Arg.shown : Arg → Arg
  | .const arg => .const arg.shown
  | .result arg => .result arg.shown
  | .data arg => .data arg.shown
  | .checksum arg => .checksum arg

end Shown

section Fields

theorem endsWord_append {u : List Char} (v : List Char)
    (mark : u.head?.any (fun c => !isWordChar c) = true) : EndsWord (u ++ v) := by
  cases u with
  | nil => cases mark
  | cons c u =>
    simp only [List.head?_cons, Option.any_some, Bool.not_eq_true'] at mark
    exact stops_cons mark

theorem Tells.field {u v mark s t : List Char} {fact : Prop} (tells : Tells EndsWord u v fact)
    (marked : mark.head?.any (fun c => !isWordChar c) = true)
    (same : u ++ (mark ++ s) = v ++ (mark ++ t)) : fact ∧ s = t := by
  obtain ⟨told, rest⟩ := tells (endsWord_append s marked) (endsWord_append t marked) same
  exact ⟨told, List.append_cancel_left rest⟩

/-- Names from a list by their position, and a numeral behind a mark for everything else. -/
structure Labels {α : Type} (name? : α → Option String) (code : α → Nat) (mark : String)
    (names : List String) : Prop where
  codes : Function.Injective code
  listed : ∀ x name, name? x = some name → name ∈ names ∧ code x = names.idxOf name
  words : ∀ name ∈ mark :: names, IsWord name.toList
  unmarked : ∀ name ∈ names, ¬ mark.toList <+: name.toList

namespace Labels

variable {α : Type} {name? : α → Option String} {code : α → Nat} {mark : String}
  {names : List String}

theorem isWord (labels : Labels name? code mark names) (x : α) :
    IsWord ((name? x).getD (mark ++ decimal (code x))).toList := by
  cases named : name? x with
  | some name => exact labels.words name (.tail _ (labels.listed x name named).1)
  | none =>
    rw [Option.getD_none, String.toList_append]
    exact (labels.words mark (.head _)).append (isWord_decimal _)

theorem name_ne (labels : Labels name? code mark names) {name : String} (member : name ∈ names)
    (n : Nat) : name.toList ≠ (mark ++ decimal n).toList := by
  intro same
  rw [String.toList_append] at same
  exact labels.unmarked name member ⟨_, same.symm⟩

theorem tells (labels : Labels name? code mark names) (x y : α) :
    Tells EndsWord ((name? x).getD (mark ++ decimal (code x))).toList
      ((name? y).getD (mark ++ decimal (code y))).toList (x = y) := by
  refine ((labels.isWord x).tells (labels.isWord y)).imp fun same => labels.codes ?_
  cases left : name? x with
  | some name =>
    obtain ⟨member, position⟩ := labels.listed x name left
    cases right : name? y with
    | some other =>
      rw [left, right, Option.getD_some, Option.getD_some] at same
      rw [position, (labels.listed y other right).2, String.toList_inj.mp same]
    | none =>
      rw [left, right] at same
      exact absurd same (labels.name_ne member _)
  | none =>
    cases right : name? y with
    | some other =>
      rw [left, right] at same
      exact absurd same.symm (labels.name_ne (labels.listed y other right).1 _)
    | none =>
      rw [left, right, Option.getD_none, Option.getD_none, String.toList_append,
        String.toList_append] at same
      have digits := List.append_cancel_left same
      rw [toList_decimal, toList_decimal] at digits
      exact toDigits_inj (by decide) (by decide) digits

end Labels

theorem NumberFormat.labels :
    Labels NumberFormat.name? (fun format => format.code.toNat) "format#"
      ["native", "big_endian", "str_dec", "str_hex", "str_oct"] where
  codes := fun ⟨_⟩ ⟨_⟩ same => congrArg NumberFormat.mk (UInt8.toNat_inj.mp same)
  listed := by
    intro format name named
    unfold name? at named
    split at named
    case h_6 => cases named
    all_goals
      cases named
      rename_i code
      rw [code]
      decide
  words := by decide
  unmarked := by decide

theorem ChunkKind.labels :
    Labels ChunkKind.name? (fun kind => kind.code.toNat) "chunk#" ["data", "const"] where
  codes := fun ⟨_⟩ ⟨_⟩ same => congrArg ChunkKind.mk (UInt64.toNat_inj.mp same)
  listed := by
    intro kind name named
    unfold name? at named
    split at named
    case h_3 => cases named
    all_goals
      cases named
      rename_i code
      rw [code]
      decide
  words := by decide
  unmarked := by decide

end Fields

section Arguments

theorem ResultArg.text_tells (a b : ResultArg) :
    Tells Anything a.text.toList b.text.toList (a.shown = b.shown) := by
  intro s t _ _ same
  unfold text at same
  simp only [String.toList_append, List.append_assoc] at same
  replace same := List.append_cancel_left same
  obtain ⟨sizes, same⟩ := (decimal_tells _ _).field (by decide) same
  obtain ⟨indices, same⟩ := (decimal_tells _ _).field (by decide) same
  obtain ⟨divisors, same⟩ := (decimal_tells _ _).field (by decide) same
  obtain ⟨addends, same⟩ := (decimal_tells _ _).field (by decide) same
  obtain ⟨fallbacks, rest⟩ := (decimal_tells _ _).field (by decide) same
  refine ⟨?_, rest⟩
  rw [UInt8.toNat_inj] at sizes
  rw [UInt64.toNat_inj] at indices divisors addends fallbacks
  simp only [shown, sizes, indices, divisors, addends, fallbacks]

/-- What may stand behind the optional fields of a constant. -/
def Closes (s : List Char) : Prop := ∃ rest, s = ')' :: rest

def bitfieldMark : List Char := ", Bitfield: ".toList

def strideMark : List Char := ", PidStride: ".toList

def ConstArg.stride (arg : ConstArg) : List Char :=
  if arg.pidStride = 0 then [] else strideMark ++ (decimal arg.pidStride.toNat).toList

def ConstArg.bitfield (arg : ConstArg) : List Char :=
  if arg.bitfieldLength = 0 then []
  else bitfieldMark ++
    ((decimal arg.bitfieldOffset.toNat).toList ++
      '+' :: (decimal arg.bitfieldLength.toNat).toList)

theorem ConstArg.toList_text (arg : ConstArg) :
    arg.text.toList = "Const(Size: ".toList ++ ((decimal arg.size.toNat).toList ++
      (", Value: ".toList ++ ((hexadecimal arg.value.toNat).toList ++ (", Format: ".toList ++
        (arg.format.text.toList ++ (arg.bitfield ++ (arg.stride ++ [')']))))))) := by
  unfold text
  simp only [String.toList_append, List.append_assoc, apply_ite String.toList]
  rfl

theorem ConstArg.stride_tells (a b : ConstArg) :
    Tells Closes a.stride b.stride (a.pidStride = b.pidStride) := by
  have unmarked (r : List Char) : ¬ Closes (strideMark ++ r) := by
    rintro ⟨rest, same⟩
    exact absurd (List.cons.inj same).1 (by decide)
  have present : Tells Closes (decimal a.pidStride.toNat).toList (decimal b.pidStride.toNat).toList
      (a.pidStride = b.pidStride) := by
    rintro _ _ ⟨s, rfl⟩ ⟨t, rfl⟩ same
    obtain ⟨strides, rest⟩ := decimal_tells _ _ (stops_cons rfl) (stops_cons rfl) same
    exact ⟨UInt32.toNat_inj.mp strides, rest⟩
  refine (Tells.optional unmarked present).imp fun ⟨both, strides⟩ => ?_
  by_cases absent : a.pidStride = 0
  · rw [absent, both.mp absent]
  · exact strides absent

def EndsBitfield (s : List Char) : Prop := EndsWord s ∧ ¬ bitfieldMark <+: s

theorem ConstArg.endsBitfield_stride (arg : ConstArg) (s : List Char) :
    EndsBitfield (arg.stride ++ ')' :: s) := by
  unfold stride
  split
  · refine ⟨stops_cons rfl, fun marked => ?_⟩
    exact absurd (List.cons_prefix_cons.mp marked).1 (by decide)
  · rw [List.append_assoc]
    refine ⟨endsWord_append _ (by decide), fun marked => ?_⟩
    -- Both marks start with a comma and a blank.
    have third := (List.cons_prefix_cons.mp (List.cons_prefix_cons.mp marked).2).2
    exact absurd (List.cons_prefix_cons.mp third).1 (by decide)

theorem ConstArg.bitfield_tells (a b : ConstArg) :
    Tells EndsBitfield a.bitfield b.bitfield
      ((a.bitfieldLength = 0 ↔ b.bitfieldLength = 0) ∧
        (¬ a.bitfieldLength = 0 →
          a.bitfieldOffset = b.bitfieldOffset ∧ a.bitfieldLength = b.bitfieldLength)) := by
  have unmarked (r : List Char) : ¬ EndsBitfield (bitfieldMark ++ r) := fun ended =>
    ended.2 (List.prefix_append _ _)
  refine Tells.optional unmarked fun s t endsLeft endsRight same => ?_
  rw [List.append_assoc, List.append_assoc] at same
  obtain ⟨offsets, same⟩ := decimal_tells _ _ (stops_cons rfl) (stops_cons rfl) same
  obtain ⟨lengths, rest⟩ := decimal_tells _ _ endsLeft.1 endsRight.1 (List.cons.inj same).2
  exact ⟨⟨UInt8.toNat_inj.mp offsets, UInt8.toNat_inj.mp lengths⟩, rest⟩

theorem ConstArg.text_tells (a b : ConstArg) :
    Tells Anything a.text.toList b.text.toList (a.shown = b.shown) := by
  intro s t _ _ same
  simp only [toList_text, List.append_assoc] at same
  replace same := List.append_cancel_left same
  obtain ⟨sizes, same⟩ := (decimal_tells _ _).field (by decide) same
  obtain ⟨values, same⟩ := (hexadecimal_tells _ _).field (by decide) same
  have endsFormat (arg : ConstArg) (s : List Char) :
      EndsWord (arg.bitfield ++ (arg.stride ++ ([')'] ++ s))) := by
    have ended := (arg.endsBitfield_stride s).1
    unfold bitfield
    split
    · exact ended
    · rw [List.append_assoc]
      exact endsWord_append _ (by decide)
  obtain ⟨formats, same⟩ := NumberFormat.labels.tells _ _ (endsFormat a s) (endsFormat b t) same
  obtain ⟨⟨both, bits⟩, same⟩ := bitfield_tells a b (a.endsBitfield_stride s)
    (b.endsBitfield_stride t) same
  obtain ⟨strides, same⟩ := stride_tells a b ⟨s, rfl⟩ ⟨t, rfl⟩ same
  refine ⟨?_, (List.cons.inj same).2⟩
  rw [UInt8.toNat_inj] at sizes
  rw [UInt64.toNat_inj] at values
  by_cases absent : a.bitfieldLength = 0
  · rw [shown, shown, if_pos absent, if_pos (both.mp absent), sizes, values, formats, strides,
      absent, both.mp absent]
  · obtain ⟨offsets, lengths⟩ := bits absent
    have present : ¬ b.bitfieldLength = 0 := fun none => absent (both.mpr none)
    rw [shown, shown, if_neg absent, if_neg present]
    cases a
    cases b
    simp_all

theorem readable_tells (b c : Bool) :
    Tells EndsWord (if b then "true" else "false").toList (if c then "true" else "false").toList
      (b = c) := by
  have word (d : Bool) : IsWord (if d then "true" else "false").toList := by
    cases d <;> decide
  refine ((word b).tells (word c)).imp fun same => ?_
  revert same
  cases b <;> cases c <;> decide

theorem DataArg.text_tells (a b : DataArg) :
    Tells Anything a.text.toList b.text.toList (a.shown = b.shown) := by
  intro s t _ _ same
  unfold text at same
  simp only [String.toList_append, List.append_assoc] at same
  replace same := List.append_cancel_left same
  obtain ⟨lengths, same⟩ := (decimal_tells _ _).field (by decide) same
  obtain ⟨readable, same⟩ := (readable_tells _ _).field (by decide) same
  have ended (length : Nat) (s : List Char) :
      EndsWord ((if shownBytes < length then "..." else "").toList ++ (")".toList ++ s)) := by
    split
    · exact endsWord_append _ (by decide)
    · exact stops_cons rfl
  obtain ⟨bytes, same⟩ := hexBytes_tells _ _ (ended _ s) (ended _ t) same
  -- The dots say nothing that the length does not.
  rw [lengths] at same
  refine ⟨?_, List.append_cancel_left (List.append_cancel_left same)⟩
  change a.bytes.take 64 = b.bytes.take 64 at bytes
  rw [shown, shown, bytes, lengths, readable]

theorem toList_commaSeparated {α : Type} (text : α → String) (xs : List α) :
    (commaSeparated (xs.map text)).toList =
      ", ".toList.intercalate (xs.map fun x => (text x).toList) := by
  simp only [commaSeparated, String.toList_intercalate, List.map_map, Function.comp_def]

theorem Tells.bracketed {α β : Type} {view : α → β} {text : α → String} {xs ys : List α}
    {close : List Char}
    (each : ∀ x y, Tells EndsWord (text x).toList (text y).toList (view x = view y))
    (opened : ∀ x r s, (text x).toList ++ r ≠ ']' :: s) :
    Tells Anything ((commaSeparated (xs.map text)).toList ++ ']' :: close)
      ((commaSeparated (ys.map text)).toList ++ ']' :: close) (xs.map view = ys.map view) := by
  rw [toList_commaSeparated, toList_commaSeparated]
  refine Tells.separated (fun x _ y _ => each x y) (fun _ => endsWord_append _ (by decide))
    (fun _ => stops_cons rfl) (fun _ _ same => ?_) fun x _ r s => opened x r _
  exact absurd (List.cons.inj same).1 (by decide)

theorem Chunk.text_tells (a b : Chunk) : Tells Anything a.text.toList b.text.toList (a = b) := by
  intro s t _ _ same
  unfold text at same
  simp only [String.toList_append, List.append_assoc] at same
  obtain ⟨kinds, same⟩ := (ChunkKind.labels.tells _ _).field (by decide) same
  obtain ⟨values, same⟩ := (hexadecimal_tells _ _).field (by decide) same
  obtain ⟨sizes, rest⟩ := (decimal_tells _ _).field (by decide) same
  rw [UInt64.toNat_inj] at values sizes
  cases a
  cases b
  simp_all

theorem Chunk.append_ne_bracket (chunk : Chunk) (r s : List Char) :
    chunk.text.toList ++ r ≠ ']' :: s := by
  unfold text ChunkKind.name?
  split <;> simp

theorem ChecksumArg.text_tells (a b : ChecksumArg) :
    Tells Anything a.text.toList b.text.toList (a = b) := by
  intro s t _ _ same
  unfold text at same
  simp only [String.toList_append, List.append_assoc] at same
  replace same := List.append_cancel_left same
  obtain ⟨sizes, same⟩ := (decimal_tells _ _).field (by decide) same
  -- There is one algorithm only.
  have kinds : a.kind = b.kind := by
    cases a.kind
    cases b.kind
    rfl
  rw [kinds] at same
  replace same := List.append_cancel_left (List.append_cancel_left same)
  have each (x y : Chunk) : Tells EndsWord x.text.toList y.text.toList (id x = id y) :=
    fun s t _ _ same => x.text_tells y trivial trivial same
  rw [← List.append_assoc, ← List.append_assoc] at same
  obtain ⟨chunks, rest⟩ := Tells.bracketed each Chunk.append_ne_bracket trivial trivial same
  rw [UInt64.toNat_inj] at sizes
  rw [List.map_id, List.map_id] at chunks
  cases a
  cases b
  simp_all

def kindOf? : List Char → Option ArgKind
  | 'C' :: 'o' :: _ => some .const
  | 'R' :: _ => some .result
  | 'D' :: _ => some .data
  | 'C' :: 's' :: _ => some .checksum
  | _ => none

theorem Arg.kindOf?_text (arg : Arg) (s : List Char) :
    kindOf? (arg.text.toList ++ s) = some arg.kind := by
  cases arg with
  | const arg => rw [text, ConstArg.toList_text, List.append_assoc]; rfl
  | result arg =>
    unfold text ResultArg.text
    simp only [String.toList_append, List.append_assoc]
    rfl
  | data arg =>
    unfold text DataArg.text
    simp only [String.toList_append, List.append_assoc]
    rfl
  | checksum arg =>
    unfold text ChecksumArg.text
    simp only [String.toList_append, List.append_assoc]
    rfl

theorem Arg.text_tells (a b : Arg) :
    Tells Anything a.text.toList b.text.toList (a.shown = b.shown) := by
  intro s t _ _ same
  have kinds : some a.kind = some b.kind := by
    rw [← a.kindOf?_text s, same, b.kindOf?_text t]
  cases a with
  | const a =>
    cases b with
    | const b => exact ((a.text_tells b).imp (congrArg Arg.const)) trivial trivial same
    | result | data | checksum => cases kinds
  | result a =>
    cases b with
    | result b => exact ((a.text_tells b).imp (congrArg Arg.result)) trivial trivial same
    | const | data | checksum => cases kinds
  | data a =>
    cases b with
    | data b => exact ((a.text_tells b).imp (congrArg Arg.data)) trivial trivial same
    | const | result | checksum => cases kinds
  | checksum a =>
    cases b with
    | checksum b => exact ((a.text_tells b).imp (congrArg Arg.checksum)) trivial trivial same
    | const | result | data => cases kinds

end Arguments

section Elision

theorem ConstArg.text_shown (arg : ConstArg) : arg.shown.text = arg.text := by
  unfold shown
  split
  · rename_i absent
    unfold text
    simp only [if_pos absent]
  · rfl

theorem DataArg.length_shown (arg : DataArg) : arg.shown.bytes.length = arg.bytes.length := by
  simp only [shown, List.length_append, List.length_take, List.length_replicate]
  omega

theorem DataArg.take_shown (arg : DataArg) : arg.shown.bytes.take 64 = arg.bytes.take 64 := by
  have filled : 64 - min 64 arg.bytes.length = 0 ∨ arg.bytes.length - 64 = 0 := by omega
  rw [shown, List.take_append, List.take_take, Nat.min_self, List.length_take, List.take_replicate]
  rcases filled with full | short
  · simp [full]
  · simp [short]

theorem DataArg.text_shown (arg : DataArg) : arg.shown.text = arg.text := by
  have shownBytes_eq : shownBytes = 64 := rfl
  have readable : arg.shown.readable = arg.readable := rfl
  unfold text
  rw [shownBytes_eq, length_shown, take_shown, readable]

theorem Arg.text_shown (arg : Arg) : arg.shown.text = arg.text := by
  cases arg with
  | const arg => exact arg.text_shown
  | result => rfl
  | data arg => exact arg.text_shown
  | checksum => rfl

end Elision

section Feeds

def OneLine (text : String) : Prop := '\n' ∉ text.toList

instance (text : String) : Decidable (OneLine text) := inferInstanceAs (Decidable (¬ _))

theorem oneLine_append {text more : String} :
    OneLine (text ++ more) ↔ OneLine text ∧ OneLine more := by
  simp only [OneLine, String.toList_append, List.mem_append, not_or]

theorem oneLine_of_isWord {text : String} (word : IsWord text.toList) : OneLine text := by
  intro member
  exact absurd (word '\n' member) (by decide)

theorem oneLine_ite {absent : Prop} [Decidable absent] {text more : String} (first : OneLine text)
    (second : OneLine more) : OneLine (if absent then text else more) := by
  split
  · exact first
  · exact second

theorem oneLine_decimal (n : Nat) : OneLine (decimal n) := oneLine_of_isWord (isWord_decimal n)

theorem oneLine_hexadecimal (n : Nat) : OneLine (hexadecimal n) :=
  oneLine_of_isWord (isWord_hexadecimal n)

theorem oneLine_commaSeparated {items : List String} (each : ∀ item ∈ items, OneLine item) :
    OneLine (commaSeparated items) := by
  induction items with
  | nil => decide
  | cons item items ih =>
    cases items with
    | nil => simpa [commaSeparated] using each
    | cons next items =>
      obtain ⟨first, later⟩ := List.forall_mem_cons.mp each
      have row : commaSeparated (item :: next :: items) =
          item ++ ", " ++ commaSeparated (next :: items) := by
        simp [commaSeparated, String.intercalate_cons_cons]
      rw [row, oneLine_append, oneLine_append]
      exact ⟨⟨first, by decide⟩, ih later⟩

theorem ConstArg.oneLine_text (arg : ConstArg) : OneLine arg.text := by
  have format : OneLine arg.format.text := oneLine_of_isWord (NumberFormat.labels.isWord arg.format)
  have bitfield : OneLine (", Bitfield: " ++ decimal arg.bitfieldOffset.toNat ++ "+" ++
      decimal arg.bitfieldLength.toNat) := by
    simp only [oneLine_append, oneLine_decimal, and_true]
    decide
  have stride : OneLine (", PidStride: " ++ decimal arg.pidStride.toNat) :=
    oneLine_append.mpr ⟨by decide, oneLine_decimal _⟩
  have none : OneLine "" := by decide
  unfold text
  simp only [oneLine_append, oneLine_decimal, oneLine_hexadecimal, format,
    oneLine_ite none bitfield, oneLine_ite none stride, and_true]
  decide

theorem ResultArg.oneLine_text (arg : ResultArg) : OneLine arg.text := by
  unfold text
  simp only [oneLine_append, oneLine_decimal, and_true]
  decide

theorem DataArg.oneLine_text (arg : DataArg) : OneLine arg.text := by
  have bytes : OneLine (hexBytes (arg.bytes.take shownBytes)) :=
    oneLine_of_isWord (isWord_hexBytes _)
  have readable : OneLine (if arg.readable then "true" else "false") :=
    oneLine_ite (by decide) (by decide)
  have dots : OneLine (if shownBytes < arg.bytes.length then "..." else "") :=
    oneLine_ite (by decide) (by decide)
  unfold text
  simp only [oneLine_append, oneLine_decimal, bytes, readable, dots, and_true]
  decide

theorem Chunk.oneLine_text (chunk : Chunk) : OneLine chunk.text := by
  have kind := oneLine_of_isWord (ChunkKind.labels.isWord chunk.kind)
  unfold text
  simp only [oneLine_append, oneLine_decimal, oneLine_hexadecimal, kind, true_and, and_true]
  decide

theorem ChecksumArg.oneLine_text (arg : ChecksumArg) : OneLine arg.text := by
  have kind : OneLine arg.kind.text := by cases arg.kind; decide
  have chunks : OneLine (commaSeparated (arg.chunks.map Chunk.text)) :=
    oneLine_commaSeparated (List.forall_mem_map.mpr fun chunk _ => chunk.oneLine_text)
  unfold text
  simp only [oneLine_append, oneLine_decimal, kind, chunks, and_true]
  decide

theorem Arg.oneLine_text (arg : Arg) : OneLine arg.text := by
  cases arg with
  | const arg => exact arg.oneLine_text
  | result arg => exact arg.oneLine_text
  | data arg => exact arg.oneLine_text
  | checksum arg => exact arg.oneLine_text

end Feeds

end SyscallStream
