import Mathlib.Data.List.Basic
import SyscallStream.Json.Scanner
import SyscallStream.Numeral

/-! Texts that can be read back from the left. Two texts are compared together with what stands
behind them, so that what is known of the parts is known of a row of parts. The letters may be
characters, or whole lines. -/

namespace SyscallStream

/-- A row of letters that starts with `u` and with `v` tells the fact and goes on alike, provided
that what stands behind `u` and behind `v` is fit to end them. -/
def Tells {τ : Type} (ends : List τ → Prop) (u v : List τ) (fact : Prop) : Prop :=
  ∀ ⦃s t⦄, ends s → ends t → u ++ s = v ++ t → fact ∧ s = t

def Anything {τ : Type} (_ : List τ) : Prop := True

def Stops {τ : Type} (kind : τ → Bool) (row : List τ) : Prop := ∀ c ∈ row.head?, kind c = false

section Rows

variable {τ α β : Type} {ends : List τ → Prop} {view : α → β} {text : α → List τ} {xs ys : List α}

theorem Tells.imp {u v : List τ} {fact other : Prop} (tells : Tells ends u v fact)
    (weaker : fact → other) : Tells ends u v other := by
  intro s t endsLeft endsRight same
  obtain ⟨told, rest⟩ := tells endsLeft endsRight same
  exact ⟨weaker told, rest⟩

theorem Tells.whole {u v : List τ} {fact : Prop} (tells : Tells ends u v fact) (ended : ends [])
    (same : u = v) : fact :=
  (tells ended ended (congrArg (· ++ []) same)).1

theorem ends_flatMap (next : ∀ x s, ends (text x ++ s)) (xs : List α) {r : List τ}
    (ended : ends r) : ends (xs.flatMap text ++ r) := by
  cases xs with
  | nil => exact ended
  | cons x xs =>
    rw [List.flatMap_cons, List.append_assoc]
    exact next x _

/-- Items in a row, up to something that no item starts with. -/
theorem Tells.flatMap (each : ∀ x ∈ xs, ∀ y ∈ ys, Tells ends (text x) (text y) (view x = view y))
    (next : ∀ x s, ends (text x ++ s)) :
    Tells (fun s => ends s ∧ ∀ x r, text x ++ r ≠ s) (xs.flatMap text) (ys.flatMap text)
      (xs.map view = ys.map view) := by
  induction xs generalizing ys with
  | nil =>
    intro s t endsLeft endsRight same
    cases ys with
    | nil => exact ⟨rfl, same⟩
    | cons y ys =>
      rw [List.flatMap_cons, List.append_assoc] at same
      exact absurd same.symm (endsLeft.2 y _)
  | cons x xs ih =>
    intro s t endsLeft endsRight same
    cases ys with
    | nil =>
      rw [List.flatMap_cons, List.append_assoc] at same
      exact absurd same (endsRight.2 x _)
    | cons y ys =>
      rw [List.flatMap_cons, List.flatMap_cons, List.append_assoc, List.append_assoc] at same
      obtain ⟨first, same⟩ := each x (.head _) y (.head _) (ends_flatMap next xs endsLeft.1)
        (ends_flatMap next ys endsRight.1) same
      obtain ⟨others, rest⟩ := ih
        (fun x member y other => each x (.tail _ member) y (.tail _ other)) endsLeft endsRight same
      rw [List.map_cons, List.map_cons, first, others]
      exact ⟨rfl, rest⟩

theorem stops_nil (kind : τ → Bool) : Stops kind [] := nofun

theorem stops_cons {kind : τ → Bool} {c : τ} {row : List τ} (other : kind c = false) :
    Stops kind (c :: row) := by
  intro d member
  cases member
  exact other

theorem Stops.imp {kind other : τ → Bool} {row : List τ} (stops : Stops kind row)
    (wider : ∀ c, other c = true → kind c = true) : Stops other row := by
  intro c first
  have no := stops c first
  rw [← Bool.not_eq_true] at no ⊢
  exact fun yes => no (wider c yes)

theorem takeWhile_run {kind : τ → Bool} {u s : List τ} (run : ∀ c ∈ u, kind c = true)
    (ended : Stops kind s) : (u ++ s).takeWhile kind = u := by
  rw [List.takeWhile_append_of_pos run]
  cases s with
  | nil => simp
  | cons c s => rw [List.takeWhile_cons_of_neg (by simp [ended c rfl]), List.append_nil]

theorem Tells.run {kind : τ → Bool} {u v : List τ} (left : ∀ c ∈ u, kind c = true)
    (right : ∀ c ∈ v, kind c = true) : Tells (Stops kind) u v (u = v) := by
  intro s t endsLeft endsRight same
  have runs : u = v := by
    rw [← takeWhile_run left endsLeft, same, takeWhile_run right endsRight]
  subst runs
  exact ⟨rfl, List.append_cancel_left same⟩

theorem Tells.map (kind : τ → Bool) (letter : α → τ) (inside : ∀ x, kind (letter x) = true)
    (each : ∀ x ∈ xs, ∀ y ∈ ys, letter x = letter y → view x = view y) :
    Tells (Stops kind) (xs.map letter) (ys.map letter) (xs.map view = ys.map view) := by
  intro s t endsLeft endsRight same
  rw [List.map_eq_flatMap, List.map_eq_flatMap] at same
  have single : ∀ x ∈ xs, ∀ y ∈ ys, Tells Anything [letter x] [letter y] (view x = view y) := by
    intro x member y other s t _ _ same
    obtain ⟨letters, rest⟩ := List.cons.inj same
    exact ⟨each x member y other letters, rest⟩
  have apart {s : List τ} (ended : Stops kind s) (x : α) (r : List τ) : [letter x] ++ r ≠ s := by
    rintro rfl
    exact absurd (ended (letter x) rfl) (by simp [inside x])
  exact Tells.flatMap single (fun _ _ => trivial) ⟨trivial, apart endsLeft⟩
    ⟨trivial, apart endsRight⟩ same

theorem intercalate_map_cons (sep : List τ) (x : α) :
    sep.intercalate ((x :: xs).map text) = text x ++ xs.flatMap fun y => sep ++ text y := by
  induction xs generalizing x with
  | nil => simp
  | cons y ys ih =>
    rw [List.map_cons, List.map_cons, List.intercalate_cons_cons, ← List.map_cons, ih,
      List.flatMap_cons, List.append_assoc, List.append_assoc]

/-- Items with separators between them and a closing mark behind them. -/
theorem Tells.separated {sep close : List τ}
    (each : ∀ x ∈ xs, ∀ y ∈ ys, Tells ends (text x) (text y) (view x = view y))
    (inside : ∀ s, ends (sep ++ s)) (behind : ∀ s, ends (close ++ s))
    (apart : ∀ r s, sep ++ r ≠ close ++ s)
    (opened : ∀ x ∈ xs ++ ys, ∀ r s, text x ++ r ≠ close ++ s) :
    Tells Anything (sep.intercalate (xs.map text) ++ close) (sep.intercalate (ys.map text) ++ close)
      (xs.map view = ys.map view) := by
  intro s t _ _ same
  rw [List.append_assoc, List.append_assoc] at same
  cases xs with
  | nil =>
    cases ys with
    | nil => exact ⟨rfl, List.append_cancel_left same⟩
    | cons y ys =>
      rw [intercalate_map_cons, List.append_assoc] at same
      exact absurd same.symm (opened y (by simp) _ _)
  | cons x xs =>
    cases ys with
    | nil =>
      rw [intercalate_map_cons, List.append_assoc] at same
      exact absurd same (opened x (by simp) _ _)
    | cons y ys =>
      rw [intercalate_map_cons, intercalate_map_cons, List.append_assoc, List.append_assoc] at same
      have next (z : α) (r : List τ) : ends ((sep ++ text z) ++ r) := by
        rw [List.append_assoc]
        exact inside _
      have closes (r : List τ) : ends (close ++ r) ∧ ∀ z q, (sep ++ text z) ++ q ≠ close ++ r := by
        refine ⟨behind r, fun z q => ?_⟩
        rw [List.append_assoc]
        exact apart _ _
      obtain ⟨first, same⟩ := each x (.head _) y (.head _) (ends_flatMap next xs (behind s))
        (ends_flatMap next ys (behind t)) same
      have later : ∀ x ∈ xs, ∀ y ∈ ys,
          Tells ends (sep ++ text x) (sep ++ text y) (view x = view y) := by
        intro x member y other s t endsLeft endsRight same
        rw [List.append_assoc, List.append_assoc] at same
        exact each x (.tail _ member) y (.tail _ other) endsLeft endsRight
          (List.append_cancel_left same)
      -- Behind the first item, every item has its separator in front of it.
      obtain ⟨others, rest⟩ := Tells.flatMap later next (closes s) (closes t) same
      rw [List.map_cons, List.map_cons, first, others]
      exact ⟨rfl, List.append_cancel_left rest⟩

/-- A part that is left out in some cases and stands behind a mark in the others. -/
theorem Tells.optional {absent gone : Prop} [Decidable absent] [Decidable gone]
    {mark u v : List τ} {fact : Prop} (unmarked : ∀ r, ¬ ends (mark ++ r))
    (present : Tells ends u v fact) :
    Tells ends (if absent then [] else mark ++ u) (if gone then [] else mark ++ v)
      ((absent ↔ gone) ∧ (¬ absent → fact)) := by
  intro s t endsLeft endsRight same
  by_cases left : absent
  · by_cases right : gone
    · rw [if_pos left, if_pos right] at same
      exact ⟨⟨iff_of_true left right, fun shown => absurd left shown⟩, same⟩
    · rw [if_pos left, if_neg right, List.nil_append, List.append_assoc] at same
      exact absurd (same ▸ endsLeft) (unmarked _)
  · by_cases right : gone
    · rw [if_neg left, if_pos right, List.nil_append, List.append_assoc] at same
      exact absurd (same ▸ endsRight) (unmarked _)
    · rw [if_neg left, if_neg right, List.append_assoc, List.append_assoc] at same
      obtain ⟨told, rest⟩ := present endsLeft endsRight (List.append_cancel_left same)
      exact ⟨⟨iff_of_false left right, fun _ => told⟩, rest⟩

end Rows

section Words

def isWordChar (c : Char) : Bool := c.isAlphanum || c == '_' || c == '#'

def IsWord (text : List Char) : Prop := ∀ c ∈ text, isWordChar c = true

instance (text : List Char) : Decidable (IsWord text) :=
  decidable_of_iff (text.all isWordChar = true) List.all_eq_true

abbrev EndsWord : List Char → Prop := Stops isWordChar

theorem IsWord.tells {u v : List Char} (left : IsWord u) (right : IsWord v) :
    Tells EndsWord u v (u = v) :=
  .run left right

theorem IsWord.append {u v : List Char} (left : IsWord u) (right : IsWord v) : IsWord (u ++ v) := by
  intro c member
  exact (List.mem_append.mp member).elim (left c) (right c)

end Words

section Numerals

open Json.Scanner (hexDigit?)

theorem hexDigit?_digitChar : ∀ i < 16, hexDigit? (Nat.digitChar i) = some i := by decide

theorem isWordChar_digitChar : ∀ i < 16, isWordChar (Nat.digitChar i) = true := by decide

theorem digitChar_inj {i j : Nat} (left : i < 16) (right : j < 16)
    (same : Nat.digitChar i = Nat.digitChar j) : i = j := by
  have values := congrArg hexDigit? same
  rw [hexDigit?_digitChar i left, hexDigit?_digitChar j right] at values
  exact Option.some.inj values

variable {base : Nat} (large : 1 < base) (small : base ≤ 16)

include large small

theorem value_toDigits (n : Nat) :
    (Nat.toDigits base n).foldl (fun value c => base * value + (hexDigit? c).getD 0) 0 = n := by
  induction n using Nat.strongRecOn with
  | ind n ih =>
    rcases Nat.lt_or_ge n base with below | above
    · rw [Nat.toDigits_of_lt_base below]
      simp [hexDigit?_digitChar n (by omega)]
    · have last : n % base < 16 := Nat.lt_of_lt_of_le (Nat.mod_lt n (by omega)) small
      rw [Nat.toDigits_of_base_le large above, List.foldl_append,
        ih (n / base) (Nat.div_lt_self (by omega) large), List.foldl_cons, List.foldl_nil,
        hexDigit?_digitChar _ last, Option.getD_some, Nat.div_add_mod]

theorem toDigits_inj {m n : Nat} (same : Nat.toDigits base m = Nat.toDigits base n) : m = n := by
  rw [← value_toDigits large small m, same, value_toDigits large small n]

theorem isWord_toDigits (n : Nat) : IsWord (Nat.toDigits base n) := by
  induction n using Nat.strongRecOn with
  | ind n ih =>
    rcases Nat.lt_or_ge n base with below | above
    · rw [Nat.toDigits_of_lt_base below]
      exact List.forall_mem_singleton.mpr (isWordChar_digitChar n (by omega))
    · have last : n % base < 16 := Nat.lt_of_lt_of_le (Nat.mod_lt n (by omega)) small
      rw [Nat.toDigits_of_base_le large above]
      exact (ih (n / base) (Nat.div_lt_self (by omega) large)).append
        (List.forall_mem_singleton.mpr (isWordChar_digitChar _ last))

theorem toDigits_cons (n : Nat) :
    ∃ c rest, Nat.toDigits base n = c :: rest ∧ isWordChar c = true := by
  have word := isWord_toDigits large small n
  obtain ⟨c, rest, row⟩ := List.exists_cons_of_ne_nil (@Nat.toDigits_ne_nil n base)
  rw [row] at word
  exact ⟨c, rest, row, word c (.head _)⟩

omit large small

@[simp]
theorem toList_decimal (n : Nat) : (decimal n).toList = Nat.toDigits 10 n := String.toList_ofList

@[simp]
theorem toList_hexadecimal (n : Nat) :
    (hexadecimal n).toList = '0' :: 'x' :: Nat.toDigits 16 n := by
  simp [hexadecimal]

theorem isWord_decimal (n : Nat) : IsWord (decimal n).toList := by
  rw [toList_decimal]
  exact isWord_toDigits (by decide) (by decide) n

theorem isWord_hexadecimal (n : Nat) : IsWord (hexadecimal n).toList := by
  rw [toList_hexadecimal]
  exact IsWord.append (u := ['0', 'x']) (by decide) (isWord_toDigits (by decide) (by decide) n)

theorem decimal_tells (m n : Nat) :
    Tells EndsWord (decimal m).toList (decimal n).toList (m = n) := by
  refine ((isWord_decimal m).tells (isWord_decimal n)).imp fun same => ?_
  rw [toList_decimal, toList_decimal] at same
  exact toDigits_inj (by decide) (by decide) same

theorem hexadecimal_tells (m n : Nat) :
    Tells EndsWord (hexadecimal m).toList (hexadecimal n).toList (m = n) := by
  refine ((isWord_hexadecimal m).tells (isWord_hexadecimal n)).imp fun same => ?_
  rw [toList_hexadecimal, toList_hexadecimal] at same
  exact toDigits_inj (by decide) (by decide) (List.cons.inj (List.cons.inj same).2).2

theorem hexByte_digits (b : UInt8) : b.toNat / 16 < 16 ∧ b.toNat % 16 < 16 := by
  have := b.toNat_lt
  omega

theorem isWord_hexBytes (bytes : List UInt8) : IsWord (hexBytes bytes).toList := by
  intro c member
  simp only [hexBytes, String.toList_ofList, List.mem_flatMap, hexByte, List.mem_cons,
    List.not_mem_nil, or_false] at member
  obtain ⟨b, _, rfl | rfl⟩ := member
  · exact isWordChar_digitChar _ (hexByte_digits b).1
  · exact isWordChar_digitChar _ (hexByte_digits b).2

theorem hexByte_tells (a b : UInt8) : Tells Anything (hexByte a) (hexByte b) (a = b) := by
  intro s t _ _ same
  simp only [hexByte, List.cons_append, List.nil_append, List.cons.injEq] at same
  obtain ⟨high, low, rest⟩ := same
  have high := digitChar_inj (hexByte_digits a).1 (hexByte_digits b).1 high
  have low := digitChar_inj (hexByte_digits a).2 (hexByte_digits b).2 low
  exact ⟨UInt8.toNat_inj.mp (by omega), rest⟩

theorem hexBytes_tells (xs ys : List UInt8) :
    Tells EndsWord (hexBytes xs).toList (hexBytes ys).toList (xs = ys) := by
  refine ((isWord_hexBytes xs).tells (isWord_hexBytes ys)).imp fun same => ?_
  simp only [hexBytes, String.toList_ofList] at same
  have ended : Anything ([] : List Char) ∧ ∀ b r, hexByte b ++ r ≠ [] := ⟨trivial, nofun⟩
  have each : ∀ x ∈ xs, ∀ y ∈ ys, Tells Anything (hexByte x) (hexByte y) (id x = id y) :=
    fun x _ y _ => hexByte_tells x y
  have row := (Tells.flatMap each fun _ _ => trivial).whole ended same
  simpa using row

end Numerals

end SyscallStream
