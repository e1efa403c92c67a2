import Mathlib.Data.List.Chain
import SyscallStream.Json.ArrayReader
import SyscallStream.Proofs.JsonGrammar

/-! Reading an array text. However its tokens are written and laid out, they are found again; and from
the tokens of an array whose items nest less deeply than the reader follows, each item is read as the
value that it is. -/

namespace SyscallStream.Json

inductive Within : Nat → Json → Prop
  | scalar (depth : Nat) (value : Scalar) : Within depth (.scalar value)
  | array {depth : Nat} {items : List Json} (each : ∀ item ∈ items, Within depth item) :
      Within (depth + 1) (.array items)
  | object {depth : Nat} {members : List (String × Json)}
      (each : ∀ member ∈ members, Within depth member.2) : Within (depth + 1) (.object members)

section Tokens

def Apart (tokens : List Token) : Prop :=
  tokens.IsChain fun left right => left.isMark = true ∨ right.isMark = true

variable {mark : Token} {front back : List Token}

theorem apart_cons (bare : mark.isMark = true) (apart : Apart back) : Apart (mark :: back) :=
  apart.cons fun _ _ => .inl bare

theorem apart_append (bare : mark.isMark = true) (left : Apart front) (right : Apart back) :
    Apart (front ++ mark :: back) := by
  apply left.append (apart_cons bare right)
  intro last _ first head
  cases head
  exact .inr bare

theorem apart_intercalate {α : Type} {text : α → List Token} {xs : List α}
    (each : ∀ x ∈ xs, Apart (text x)) : Apart ([.comma].intercalate (xs.map text)) := by
  cases xs with
  | nil => exact .nil
  | cons x xs =>
    rw [intercalate_map_cons]
    induction xs generalizing x with
    | nil =>
      rw [List.flatMap_nil, List.append_nil]
      exact each x (.head _)
    | cons y ys ih =>
      rw [List.flatMap_cons, List.append_assoc]
      apply apart_append rfl (each x (.head _))
      exact ih y fun z member => each z (.tail _ member)

theorem Within.apart {depth : Nat} {value : Json} (within : Within depth value) :
    Apart value.tokens := by
  induction within with
  | scalar depth value =>
    rw [tokens]
    exact .singleton _
  | array each ih =>
    rw [tokens]
    exact apart_cons rfl (apart_append rfl (apart_intercalate ih) .nil)
  | object each ih =>
    rw [tokens]
    apply apart_cons rfl (apart_append rfl (apart_intercalate _) .nil)
    intro member inside
    exact List.isChain_cons_cons.mpr ⟨.inr rfl, apart_cons rfl (ih member inside)⟩

end Tokens

section Scans

variable {fits : Number → Prop} {found : Array Token}

theorem scanRest_blanks {blanks : List Char} (blank : Blank blanks) (rest : List Char) :
    scanRest found (blanks ++ rest) = scanRest found rest := by
  induction blanks with
  | nil => rfl
  | cons c blanks ih =>
    rw [List.cons_append, scanRest, if_pos (blank c (.head _))]
    exact ih fun d member => blank d (.tail _ member)

theorem scanRest_mark {token : Token} (bare : token.isMark = true) (rest : List Char) :
    scanRest found (token.text.toList ++ rest) = scanRest (found.push token) rest := by
  cases token with
  | scalar value => cases bare
  | _ =>
    change scanRest found (_ :: rest) = _
    rw [scanRest]
    rfl

/-- A scalar starts with a character that nothing else starts with. -/
theorem starts_scalar {value : Scalar} {word : List Char} (written : ScalarText fits value word) :
    ∃ c more, word = c :: more ∧ isBlank c = false ∧ punctuation? c = none := by
  cases written with
  | null | true | false | string => exact ⟨_, _, rfl, rfl, rfl⟩
  | number ranged written =>
    rcases Scanner.starts_number written with ⟨c, more, rfl, starts⟩
    have other (d : Char) (no : ¬ (d = '-' ∨ d.isDigit = true)) : c ≠ d :=
      fun same => no (same ▸ starts)
    refine ⟨c, more, rfl, ?_, ?_⟩
    · simp only [isBlank, beq_false_of_ne (other ' ' (by decide)),
        beq_false_of_ne (other '\n' (by decide)), beq_false_of_ne (other '\t' (by decide)),
        beq_false_of_ne (other '\r' (by decide)), Bool.or_self]
    · simp only [punctuation?, other '[' (by decide), other ']' (by decide),
        other '\x7b' (by decide), other '\x7d' (by decide), other ',' (by decide),
        other ':' (by decide), if_false]

theorem scanRest_scalar {value : Scalar} {word rest : List Char}
    (written : ScalarText (fun number => number.inRange = true) value word)
    (stops : Stops Scanner.numberChar rest) :
    scanRest found (word ++ rest) = scanRest (found.push (.scalar value)) rest := by
  have reads := Scanner.scalar_reads written rest stops
  rcases starts_scalar written with ⟨c, more, rfl, solid, bare⟩
  rw [List.cons_append] at reads ⊢
  rw [scanRest, if_neg (by rw [solid]; exact Bool.false_ne_true)]
  simp only [bare]
  split
  · rename_i ran
    rw [reads] at ran
    cases ran
    rfl
  · rename_i ran
    rw [reads] at ran
    cases ran

theorem Laid.stops {tokens : List Token} {text : List Char} (laid : Laid fits tokens text)
    (bare : ∀ token ∈ tokens.head?, token.isMark = true) : Stops Scanner.numberChar text := by
  have blanks {blanks rest : List Char} (blank : Blank blanks)
      (stops : Stops Scanner.numberChar rest) : Stops Scanner.numberChar (blanks ++ rest) := by
    cases blanks with
    | nil => exact stops
    | cons c blanks =>
      apply stops_cons
      have white := blank c (.head _)
      simp only [isBlank, Bool.or_eq_true, beq_iff_eq] at white
      rcases white with ((rfl | rfl) | rfl) | rfl
      all_goals rfl
  cases laid with
  | nil blank =>
    have none := blanks blank (stops_nil _)
    rw [List.append_nil] at none
    exact none
  | @cons token _ _ _ _ blank written rest =>
    apply blanks blank
    have mark := bare _ rfl
    cases written with
    | scalar => cases mark
    | mark =>
      cases token with
      | scalar => cases mark
      | _ => exact stops_cons rfl

theorem scanRest_laid {tokens : List Token} {text : List Char}
    (laid : Laid (fun number => number.inRange = true) tokens text) (apart : Apart tokens) :
    scanRest found text = ⟨found.toList ++ tokens, .complete⟩ := by
  induction laid generalizing found with
  | @nil blanks blank =>
    have none : scanRest found (blanks ++ []) = scanRest found [] := scanRest_blanks blank []
    rw [List.append_nil] at none
    rw [none, scanRest, List.append_nil]
  | @cons token tokens blanks word text blank written rest ih =>
    have later : scanRest (found.push token) text = ⟨found.toList ++ token :: tokens, .complete⟩ := by
      rw [ih apart.tail, Array.toList_push, List.append_assoc, List.singleton_append]
    rw [scanRest_blanks blank, ← later]
    cases written with
    | scalar written =>
      apply scanRest_scalar written
      apply rest.stops
      intro next head
      exact (apart.rel_head? head).resolve_left Bool.false_ne_true
    | mark bare => exact scanRest_mark bare text

end Scans

/-- A loop over separated items and what closes them, by what is known behind each item. -/
theorem foldlM_row {σ τ ε α : Type} {step : σ → τ → Except ε σ} {text : α → List τ}
    {comma close : τ} {first : σ} {xs : List α} {result : Except ε σ} (ready : List α → σ)
    (empty : xs = [] → step first close = result)
    (start : ∀ x ∈ xs, (text x).foldlM step first = .ok (ready [x]))
    (next : ∀ ys, ∀ x ∈ xs, (comma :: text x).foldlM step (ready ys) = .ok (ready (ys ++ [x])))
    (closed : step (ready xs) close = result) :
    ([comma].intercalate (xs.map text) ++ [close]).foldlM step first = result := by
  have rest (ys zs : List α) (inside : ∀ z ∈ zs, z ∈ xs) :
      (zs.flatMap fun z => [comma] ++ text z).foldlM step (ready ys) = .ok (ready (ys ++ zs)) := by
    induction zs generalizing ys with
    | nil =>
      rw [List.append_nil]
      rfl
    | cons z zs ih =>
      have later := ih (ys ++ [z]) fun x member => inside x (.tail _ member)
      rw [List.append_assoc] at later
      rw [List.flatMap_cons, List.foldlM_append, List.singleton_append,
        next ys z (inside z (.head _))]
      exact later
  cases xs with
  | nil => exact (bind_pure _).trans (empty rfl)
  | cons x xs =>
    have all := rest [x] xs fun z member => .tail _ member
    rw [List.foldlM_append, intercalate_map_cons, List.foldlM_append, start x (.head _)]
    change (List.foldlM step (ready [x]) _ >>= _) = _
    rw [all]
    exact (bind_pure _).trans closed

namespace ArrayReader

variable {α : Type} {accept : Json → Option α}

theorem deliver_wanted (items : Array α) (frames : List Frame) (wanted other : Wanted)
    (value : Json) :
    deliver accept ⟨items, frames, wanted⟩ value = deliver accept ⟨items, frames, other⟩ value := by
  unfold deliver
  rcases frames with _ | ⟨frame, outer⟩
  · rfl
  · cases frame <;> rfl

/-- The tokens of the value deliver it to every reader that wants a value inside of `count` open
containers. -/
def Delivers (accept : Json → Option α) (count : Nat) (value : Json) : Prop :=
  ∀ items frames wanted, frames.length = count → (wanted = .value ∨ wanted = .valueOrClose) →
    value.tokens.foldlM (step accept) ⟨items, frames, wanted⟩ =
      deliver accept ⟨items, frames, wanted⟩ value

theorem array_delivers {count : Nat} {values : List Json} (room : count + 2 < tooDeep)
    (each : ∀ value ∈ values, Delivers accept (count + 1) value) :
    Delivers accept count (.array values) := by
  intro items frames wanted length wants
  have opened : step accept ⟨items, frames, wanted⟩ .openArray =
      .ok ⟨items, .array #[] :: frames, .valueOrClose⟩ := by
    rw [← length] at room
    rcases wants with rfl | rfl <;> exact if_pos room
  have inside (got : List Json) (value : Json) (member : value ∈ values) (wanted : Wanted)
      (wants : wanted = .value ∨ wanted = .valueOrClose) :
      value.tokens.foldlM (step accept) ⟨items, .array got.toArray :: frames, wanted⟩ =
        .ok ⟨items, .array (got ++ [value]).toArray :: frames, .separator⟩ := by
    rw [each value member _ _ _ (by rw [List.length_cons, length]) wants]
    simp [deliver]
  have row : ([Token.comma].intercalate (values.map tokens) ++ [Token.closeArray]).foldlM
      (step accept) ⟨items, .array #[] :: frames, .valueOrClose⟩ =
        deliver accept ⟨items, frames, wanted⟩ (.array values) := by
    apply foldlM_row fun got => ⟨items, .array got.toArray :: frames, .separator⟩
    · intro none
      rw [none]
      exact deliver_wanted items frames _ _ _
    · intro value member
      exact inside [] value member .valueOrClose (.inr rfl)
    · intro got value member
      exact inside got value member .value (.inl rfl)
    · exact deliver_wanted items frames _ _ _
  rw [tokens, List.foldlM_cons, opened]
  exact row

def lastKey (members : List (String × Json)) : String := (members.getLast?.map (·.1)).getD ""

theorem object_delivers {count : Nat} {members : List (String × Json)}
    (room : count + 2 < tooDeep)
    (each : ∀ member ∈ members, Delivers accept (count + 1) member.2) :
    Delivers accept count (.object members) := by
  intro items frames wanted length wants
  have opened : step accept ⟨items, frames, wanted⟩ .openObject =
      .ok ⟨items, .object #[] "" :: frames, .keyOrClose⟩ := by
    rw [← length] at room
    rcases wants with rfl | rfl <;> exact if_pos room
  have inside (got : List (String × Json)) (last : String) (member : String × Json)
      (known : member ∈ members) (wanted : Wanted) (wants : wanted = .key ∨ wanted = .keyOrClose) :
      (.scalar (.string member.1) :: .colon :: member.2.tokens).foldlM (step accept)
          ⟨items, .object got.toArray last :: frames, wanted⟩ =
        .ok ⟨items, .object (got ++ [member]).toArray (lastKey (got ++ [member])) :: frames,
          .separator⟩ := by
    have named : step accept ⟨items, .object got.toArray last :: frames, wanted⟩
        (.scalar (.string member.1)) =
          .ok ⟨items, .object got.toArray member.1 :: frames, .colon⟩ := by
      rcases wants with rfl | rfl <;> rfl
    have value : member.2.tokens.foldlM (step accept)
        ⟨items, .object got.toArray member.1 :: frames, .value⟩ = _ :=
      each member known _ _ _ (by rw [List.length_cons, length]) (.inl rfl)
    rw [List.foldlM_cons, named]
    refine value.trans ?_
    simp [deliver, lastKey]
  have row : ([Token.comma].intercalate (members.map fun member =>
      .scalar (.string member.1) :: .colon :: tokens member.2) ++ [Token.closeObject]).foldlM
      (step accept) ⟨items, .object #[] "" :: frames, .keyOrClose⟩ =
        deliver accept ⟨items, frames, wanted⟩ (.object members) := by
    apply foldlM_row fun got => ⟨items, .object got.toArray (lastKey got) :: frames, .separator⟩
    · intro none
      rw [none]
      exact deliver_wanted items frames _ _ _
    · intro member known
      exact inside [] "" member known .keyOrClose (.inr rfl)
    · intro got member known
      exact inside got (lastKey got) member known .key (.inl rfl)
    · exact deliver_wanted items frames _ _ _
  rw [tokens, List.foldlM_cons, opened]
  exact row

theorem delivers_of_within {depth : Nat} {value : Json} (within : Within depth value)
    {count : Nat} (room : count + 1 + depth < tooDeep) : Delivers accept count value := by
  induction within generalizing count with
  | scalar depth value =>
    intro items frames wanted length wants
    rw [tokens]
    rcases wants with rfl | rfl <;> exact bind_pure _
  | array each ih => exact array_delivers (by omega) fun item member => ih item member (by omega)
  | object each ih => exact object_delivers (by omega) fun item member => ih item member (by omega)

end ArrayReader

section Arrays

variable {α : Type} {accept : Json → Option α} {items : List Json}

theorem foldlM_items (each : ∀ item ∈ items, ArrayReader.Delivers accept 0 item)
    (accepted : ∀ item ∈ items, (accept item).isSome = true) :
    ([Token.comma].intercalate (items.map tokens) ++ [Token.closeArray]).foldlM
      (ArrayReader.step accept) {} = .ok ⟨(items.filterMap accept).toArray, [], .nothing⟩ := by
  have inside (got : List Json) (item : Json) (member : item ∈ items) (wanted : Wanted)
      (wants : wanted = .value ∨ wanted = .valueOrClose) :
      item.tokens.foldlM (ArrayReader.step accept) ⟨(got.filterMap accept).toArray, [], wanted⟩ =
        .ok ⟨((got ++ [item]).filterMap accept).toArray, [], .separator⟩ := by
    obtain ⟨result, known⟩ := Option.isSome_iff_exists.mp (accepted item member)
    rw [each item member _ _ _ rfl wants]
    simp [ArrayReader.deliver, known]
  apply foldlM_row fun got => ⟨(got.filterMap accept).toArray, [], .separator⟩
  · intro none
    rw [none]
    rfl
  · intro item member
    exact inside [] item member .valueOrClose (.inr rfl)
  · intro got item member
    exact inside got item member .value (.inl rfl)
  · rfl

/-- An array text gives its items, each as it is accepted, if they nest less deeply than the reader
follows. -/
theorem readArray_laid {results : List α} {text : String}
    (accepted : items.map accept = results.map some) (within : Within 127 (.array items))
    (laid : Laid (fun number => number.inRange = true) (tokens (.array items)) text.toList) :
    readArray accept text = .ok results := by
  have found : scan text = ⟨tokens (.array items), .complete⟩ := scanRest_laid laid within.apart
  have each : ∀ item ∈ items, ArrayReader.Delivers accept 0 item := by
    cases within with
    | array each =>
      intro item member
      exact ArrayReader.delivers_of_within (each item member) (by decide)
  have known : ∀ item ∈ items, (accept item).isSome = true := by
    intro item member
    have result := List.mem_map_of_mem (f := accept) member
    rw [accepted] at result
    obtain ⟨_, _, same⟩ := List.mem_map.mp result
    rw [← same]
    rfl
  have kept : items.filterMap accept = results := calc
    items.filterMap accept = (items.map accept).filterMap id := by rw [List.filterMap_map]; rfl
    _ = (results.map some).filterMap id := by rw [accepted]
    _ = results := by
      rw [List.filterMap_map]
      exact List.filterMap_some
  unfold readArray
  rw [found, tokens]
  simp only [foldlM_items each known, kept]
  rfl

end Arrays

end SyscallStream.Json
