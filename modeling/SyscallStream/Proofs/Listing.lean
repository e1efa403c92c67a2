import SyscallStream.Catalog.Table
import SyscallStream.Proofs.ArgumentText

/-! What the listing of a program tells. A text is read line by line and every line from its first
character on, except that the name of a syscall is whatever stands in front of the last opening
bracket of its line. -/

namespace SyscallStream

def Copyin.shown (copyin : Copyin) : Copyin := { copyin with arg := copyin.arg.shown }

/-- A call as far as the listing shows it: of the catalog entry it has the name. -/
def Call.shown (call : Call) : Call where
  syscall := ⟨0, 0, call.syscall.name, ""⟩
  index := call.index
  args := call.args.map Arg.shown
  copyin := call.copyin.map Copyin.shown
  copyout := call.copyout

section Lines

theorem Arg.line_tells {i j : Nat} {a b : Arg} (same : Arg.line i a = Arg.line j b) :
    a.shown = b.shown := by
  replace same := congrArg String.toList same
  unfold line at same
  simp only [String.toList_append, List.append_assoc] at same
  obtain ⟨-, same⟩ := (decimal_tells _ _).field (by decide) (List.append_cancel_left same)
  exact (a.text_tells b).whole trivial same

theorem Copyin.line_tells {a b : Copyin} (same : a.line = b.line) : a.shown = b.shown := by
  replace same := congrArg String.toList same
  unfold line at same
  simp only [String.toList_append, List.append_assoc] at same
  obtain ⟨addresses, same⟩ := (hexadecimal_tells _ _).field (by decide)
    (List.append_cancel_left same)
  rw [shown, shown, UInt64.toNat_inj.mp addresses, (a.arg.text_tells b.arg).whole trivial same]

theorem Copyout.line_tells {a b : Copyout} (same : a.line = b.line) : a = b := by
  replace same := congrArg String.toList same
  unfold line at same
  simp only [String.toList_append, List.append_assoc] at same
  obtain ⟨indices, same⟩ := (decimal_tells _ _).field (by decide) (List.append_cancel_left same)
  obtain ⟨addresses, same⟩ := (hexadecimal_tells _ _).field (by decide) same
  have sizes := (decimal_tells _ _).whole (stops_nil _) same
  rw [UInt64.toNat_inj] at indices addresses sizes
  cases a
  cases b
  simp_all

def Call.indexText (call : Call) : String :=
  match call.resultIndex? with
  | some index => decimal index.toNat
  | none => "none"

theorem Call.isWord_indexText (call : Call) : IsWord call.indexText.toList := by
  unfold indexText
  split
  · exact isWord_decimal _
  · decide

theorem Call.indexText_inj {a b : Call} (same : a.indexText.toList = b.indexText.toList) :
    a.index = b.index := by
  have numeral (index : UInt64) : (decimal index.toNat).toList ≠ "none".toList := by
    intro same
    have member : 'n' ∈ (decimal index.toNat).toList := by
      rw [same]
      decide
    rw [toList_decimal] at member
    exact absurd (Nat.isDigit_of_mem_toDigits (by decide) (by decide) member) (by decide)
  unfold indexText resultIndex? at same
  by_cases left : a.index = noResult
  · by_cases right : b.index = noResult
    · rw [left, right]
    · rw [if_pos left, if_neg right] at same
      exact absurd same.symm (numeral _)
  · by_cases right : b.index = noResult
    · rw [if_neg left, if_pos right] at same
      exact absurd same (numeral _)
    · rw [if_neg left, if_neg right] at same
      exact UInt64.toNat_inj.mp ((decimal_tells _ _).whole (stops_nil _) same)

/-- What stands in front of the last of certain letters and what stands behind it. -/
theorem append_inj_of_last {τ : Type} [BEq τ] [LawfulBEq τ] {c : τ} {u v s t : List τ}
    (left : c ∉ s) (right : c ∉ t) (same : u ++ c :: s = v ++ c :: t) : u = v ∧ s = t := by
  have run {s : List τ} (absent : c ∉ s) : ∀ d ∈ s.reverse, (d != c) = true := by
    intro d member
    refine bne_iff_ne.mpr ?_
    rintro rfl
    exact absent (List.mem_reverse.mp member)
  have ended (u : List τ) : Stops (· != c) (c :: u.reverse) := stops_cons (by simp)
  have reversed := congrArg List.reverse same
  simp only [List.reverse_append, List.reverse_cons, List.append_assoc, List.singleton_append]
    at reversed
  obtain ⟨backs, fronts⟩ := Tells.run (run left) (run right) (ended u) (ended v) reversed
  exact ⟨List.reverse_injective (List.cons.inj fronts).2, List.reverse_injective backs⟩

/-- A name may hold anything, but the last opening bracket of the line is behind it. -/
theorem Call.syscallLine_tells {a b : Call} (same : a.syscallLine = b.syscallLine) :
    a.syscall.name = b.syscall.name ∧ a.index = b.index := by
  have form (call : Call) : call.syscallLine.toList = "    Syscall: ".toList ++
      (call.syscall.name.toList ++ [' '] ++
        '(' :: ("Index: ".toList ++ (call.indexText.toList ++ [')']))) := by
    unfold syscallLine
    simp only [String.toList_append, List.append_assoc]
    rfl
  have single (call : Call) : '(' ∉ "Index: ".toList ++ (call.indexText.toList ++ [')']) := by
    have absent : '(' ∉ call.indexText.toList := fun member =>
      absurd (call.isWord_indexText '(' member) (by decide)
    simp [absent]
  replace same := congrArg String.toList same
  rw [form, form] at same
  obtain ⟨names, same⟩ := append_inj_of_last (single a) (single b) (List.append_cancel_left same)
  refine ⟨String.toList_inj.mp (List.append_cancel_right names), indexText_inj ?_⟩
  exact List.append_cancel_right (List.append_cancel_left same)

def isEntry (line : String) : Bool := "      ".toList.isPrefixOf line.toList

theorem isEntry_append {text : String} (more : String) (entry : isEntry text = true) :
    isEntry (text ++ more) = true := by
  unfold isEntry at entry ⊢
  rw [List.isPrefixOf_iff_prefix] at entry ⊢
  rw [String.toList_append]
  exact entry.trans (List.prefix_append _ _)

theorem Arg.isEntry_line (position : Nat) (arg : Arg) : isEntry (arg.line position) = true := by
  unfold line
  exact isEntry_append _ (isEntry_append _ (isEntry_append _ (by decide)))

theorem Copyin.isEntry_line (copyin : Copyin) : isEntry copyin.line = true := by
  unfold line
  exact isEntry_append _ (isEntry_append _ (isEntry_append _ (by decide)))

theorem Copyout.isEntry_line (copyout : Copyout) : isEntry copyout.line = true := by
  unfold line
  iterate 5 apply isEntry_append
  decide

theorem Call.stops_lines (position : Nat) (call : Call) (rest : List String) :
    Stops isEntry (call.lines position ++ rest) := by
  refine stops_cons (c := "  Call " ++ decimal position ++ ":") ?_
  unfold isEntry
  simp only [String.toList_append, List.append_assoc]
  rfl

theorem map_fst_zipIdx {α β : Type} (view : α → β) (xs : List α) :
    (xs.zipIdx.map fun x => view x.1) = xs.map view := by
  change xs.zipIdx.map (view ∘ Prod.fst) = _
  rw [← List.map_map, List.zipIdx_map_fst]

theorem Call.lines_tells (i j : Nat) (a b : Call) :
    Tells (Stops isEntry) (a.lines i) (b.lines j) (a.shown = b.shown) := by
  intro s t endsLeft endsRight same
  unfold lines at same
  simp only [List.mapIdx_eq_zipIdx_map, List.append_assoc, List.cons_append, List.nil_append]
    at same
  obtain ⟨-, same⟩ := List.cons.inj same
  obtain ⟨titles, same⟩ := List.cons.inj same
  obtain ⟨names, indices⟩ := syscallLine_tells titles
  -- Every list of entries goes on to the title of the next one.
  have argLines : ∀ x ∈ a.args.zipIdx, ∀ y ∈ b.args.zipIdx,
      Arg.line x.2 x.1 = Arg.line y.2 y.1 → x.1.shown = y.1.shown :=
    fun _ _ _ _ => Arg.line_tells
  obtain ⟨args, same⟩ := Tells.map isEntry (fun x : Arg × Nat => Arg.line x.2 x.1)
    (fun x => Arg.isEntry_line x.2 x.1) argLines (stops_cons (by decide)) (stops_cons (by decide))
    (List.cons.inj same).2
  obtain ⟨copyins, same⟩ := Tells.map isEntry Copyin.line Copyin.isEntry_line
    (fun _ _ _ _ => Copyin.line_tells) (stops_cons (by decide)) (stops_cons (by decide))
    (List.cons.inj same).2
  have outLines : ∀ x ∈ a.copyout, ∀ y ∈ b.copyout, x.line = y.line → id x = id y :=
    fun _ _ _ _ => Copyout.line_tells
  obtain ⟨copyouts, rest⟩ := Tells.map isEntry Copyout.line Copyout.isEntry_line outLines endsLeft
    endsRight (List.cons.inj same).2
  rw [map_fst_zipIdx, map_fst_zipIdx] at args
  rw [List.map_id, List.map_id] at copyouts
  rw [shown, shown, names, indices, args, copyins, copyouts]
  exact ⟨rfl, rest⟩

theorem vars_tells {vars others : List UInt64}
    (same : "  Vars: [" ++ commaSeparated (vars.map fun v => decimal v.toNat) ++ "]" =
      "  Vars: [" ++ commaSeparated (others.map fun v => decimal v.toNat) ++ "]") :
    vars = others := by
  have each (v w : UInt64) :
      Tells EndsWord (decimal v.toNat).toList (decimal w.toNat).toList (id v = id w) :=
    (decimal_tells _ _).imp UInt64.toNat_inj.mp
  have opened (v : UInt64) (r s : List Char) : (decimal v.toNat).toList ++ r ≠ ']' :: s := by
    obtain ⟨digit, rest, row, word⟩ := @toDigits_cons 10 (by decide) (by decide) v.toNat
    rw [toList_decimal, row]
    intro same
    rw [(List.cons.inj same).1] at word
    exact absurd word (by decide)
  replace same := congrArg String.toList same
  simp only [String.toList_append, List.append_assoc] at same
  have rows := (Tells.bracketed each opened).whole trivial (List.append_cancel_left same)
  simpa using rows

theorem Program.lines_tell {program other : Program} (same : program.lines = other.lines) :
    program.vars = other.vars ∧ program.calls.map Call.shown = other.calls.map Call.shown := by
  unfold lines at same
  simp only [List.mapIdx_eq_zipIdx_map, List.cons_append, List.nil_append, List.cons.injEq,
    true_and, ← List.flatMap_def] at same
  obtain ⟨vars, calls⟩ := same
  have each : ∀ x ∈ program.calls.zipIdx, ∀ y ∈ other.calls.zipIdx,
      Tells (Stops isEntry) (Call.lines x.2 x.1) (Call.lines y.2 y.1) (x.1.shown = y.1.shown) :=
    fun _ _ _ _ => Call.lines_tells _ _ _ _
  have ended : Stops isEntry [] ∧ ∀ (x : Call × Nat) r, Call.lines x.2 x.1 ++ r ≠ [] :=
    ⟨stops_nil _, fun _ _ => nofun⟩
  have rows := (Tells.flatMap each fun x => Call.stops_lines x.2 x.1).whole ended calls
  rw [map_fst_zipIdx, map_fst_zipIdx] at rows
  exact ⟨vars_tells vars, rows⟩

end Lines

section Elision

theorem mapIdx_map {α β : Type} {text : Nat → α → β} {view : α → α}
    (same : ∀ i x, text i (view x) = text i x) (xs : List α) :
    (xs.map view).mapIdx text = xs.mapIdx text := by
  apply List.ext_getElem?
  intro i
  simp only [List.getElem?_mapIdx, List.getElem?_map, Option.map_map, Function.comp_def, same]

theorem Arg.line_shown (position : Nat) (arg : Arg) :
    arg.shown.line position = arg.line position := by
  unfold line
  rw [text_shown]

theorem Copyin.line_shown (copyin : Copyin) : copyin.shown.line = copyin.line := by
  unfold line shown
  rw [Arg.text_shown]

theorem Call.lines_shown (position : Nat) (call : Call) :
    call.shown.lines position = call.lines position := by
  have args : call.shown.args.mapIdx Arg.line = call.args.mapIdx Arg.line :=
    mapIdx_map Arg.line_shown call.args
  have copyins : call.shown.copyin.map Copyin.line = call.copyin.map Copyin.line := by
    simp only [shown, List.map_map, Function.comp_def, Copyin.line_shown]
  have titles : call.shown.syscallLine = call.syscallLine := rfl
  have copyouts : call.shown.copyout = call.copyout := rfl
  unfold lines
  rw [args, copyins, titles, copyouts]

theorem Program.text_congr {program other : Program} (vars : program.vars = other.vars)
    (calls : program.calls.map Call.shown = other.calls.map Call.shown) :
    program.text = other.text := by
  unfold text Program.lines
  rw [vars, ← mapIdx_map Call.lines_shown program.calls, calls,
    mapIdx_map Call.lines_shown other.calls]

end Elision

section Feeds

theorem Arg.oneLine_line (position : Nat) (arg : Arg) : OneLine (arg.line position) := by
  unfold line
  simp only [oneLine_append, oneLine_decimal, oneLine_text, and_true]
  decide

theorem Copyin.oneLine_line (copyin : Copyin) : OneLine copyin.line := by
  unfold line
  simp only [oneLine_append, oneLine_hexadecimal, Arg.oneLine_text, and_true]
  decide

theorem Copyout.oneLine_line (copyout : Copyout) : OneLine copyout.line := by
  unfold line
  simp only [oneLine_append, oneLine_hexadecimal, oneLine_decimal, and_true]
  decide

theorem Call.oneLine_lines {call : Call} (name : OneLine call.syscall.name) (position : Nat) :
    ∀ line ∈ call.lines position, OneLine line := by
  have header : OneLine ("  Call " ++ decimal position ++ ":") := by
    simp only [oneLine_append, oneLine_decimal, and_true]
    decide
  have title : OneLine call.syscallLine := by
    have index : OneLine call.indexText := oneLine_of_isWord call.isWord_indexText
    change OneLine ("    Syscall: " ++ call.syscall.name ++ " (Index: " ++ call.indexText ++ ")")
    simp only [oneLine_append, name, index, and_true]
    decide
  unfold lines
  simp only [List.forall_mem_append, List.forall_mem_cons, List.mapIdx_eq_zipIdx_map,
    List.forall_mem_map]
  refine ⟨⟨⟨⟨⟨⟨header, title, by decide, nofun⟩, ?_⟩, by decide, nofun⟩, ?_⟩, by decide, nofun⟩, ?_⟩
  · exact fun x _ => Arg.oneLine_line x.2 x.1
  · exact fun copyin _ => copyin.oneLine_line
  · exact fun copyout _ => copyout.oneLine_line

def Program.NamesFit (program : Program) : Prop :=
  ∀ call ∈ program.calls, OneLine call.syscall.name

instance (program : Program) : Decidable program.NamesFit :=
  inferInstanceAs (Decidable (∀ call ∈ program.calls, OneLine call.syscall.name))

theorem Program.oneLine_lines {program : Program} (names : program.NamesFit) :
    ∀ line ∈ program.lines, OneLine line := by
  have vars : OneLine ("  Vars: [" ++ commaSeparated (program.vars.map fun v => decimal v.toNat) ++
      "]") := by
    have row : OneLine (commaSeparated (program.vars.map fun v => decimal v.toNat)) :=
      oneLine_commaSeparated (List.forall_mem_map.mpr fun v _ => oneLine_decimal v.toNat)
    simp only [oneLine_append, row, and_true]
    decide
  unfold lines
  simp only [List.forall_mem_append, List.forall_mem_cons, List.mapIdx_eq_zipIdx_map]
  refine ⟨⟨by decide, vars, nofun⟩, ?_⟩
  intro line member
  rw [← List.flatMap_def] at member
  obtain ⟨⟨call, position⟩, inside, own⟩ := List.mem_flatMap.mp member
  exact Call.oneLine_lines (names call (List.fst_mem_of_mem_zipIdx inside)) position line own

theorem lines_of_join {lines others : List String} (left : ∀ line ∈ lines, OneLine line)
    (right : ∀ line ∈ others, OneLine line)
    (same : String.join (lines.map (· ++ "\n")) = String.join (others.map (· ++ "\n"))) :
    lines = others := by
  have rows (lines : List String) : (String.join (lines.map (· ++ "\n"))).toList =
      lines.flatMap fun line => line.toList ++ ['\n'] := by
    simp [List.flatMap_def, Function.comp_def]
  have run {line : String} (single : OneLine line) : ∀ c ∈ line.toList, (c != '\n') = true := by
    intro c member
    refine bne_iff_ne.mpr ?_
    rintro rfl
    exact single member
  have each : ∀ x ∈ lines, ∀ y ∈ others,
      Tells Anything (x.toList ++ ['\n']) (y.toList ++ ['\n']) (id x = id y) := by
    intro x member y other s t _ _ same
    rw [List.append_assoc, List.append_assoc] at same
    obtain ⟨texts, rest⟩ := Tells.run (run (left x member)) (run (right y other))
      (stops_cons rfl) (stops_cons rfl) same
    exact ⟨String.toList_inj.mp texts, (List.cons.inj rest).2⟩
  have ended : Anything ([] : List Char) ∧ ∀ (x : String) r, (x.toList ++ ['\n']) ++ r ≠ [] :=
    ⟨trivial, by simp⟩
  replace same := congrArg String.toList same
  rw [rows, rows] at same
  have told := (Tells.flatMap each fun _ _ => trivial).whole ended same
  simpa using told

end Feeds

/-- Two texts are equal if and only if the programs have the same variables and show the same calls,
provided that no name runs over a line end. Placeholder names never do. -/
theorem text_unambiguous (first second : Program) (names : first.NamesFit)
    (names' : second.NamesFit) :
    (first.text = second.text ↔
      first.vars = second.vars ∧ first.calls.map Call.shown = second.calls.map Call.shown) ∧
    ∀ size, ∀ entry ∈ (Table.anonymous size).entries, OneLine entry.name := by
  refine ⟨⟨fun same => ?_, fun ⟨vars, calls⟩ => Program.text_congr vars calls⟩, ?_⟩
  · exact Program.lines_tell
      (lines_of_join (Program.oneLine_lines names) (Program.oneLine_lines names') same)
  · intro size entry member
    obtain ⟨position, -, rfl⟩ := Array.mem_map.mp member
    exact oneLine_append.mpr ⟨by decide, oneLine_decimal position⟩

def listedCall (name : String) (hidden : UInt8) : Call where
  syscall := ⟨4, 2, name, "open"⟩
  index := noResult
  args := [.result ⟨8, ⟨hidden⟩, 1, 0, 0, 7⟩, .const ⟨4, ⟨9⟩, 255, hidden, 0, 1⟩]
  copyin := [⟨16, .data ⟨List.replicate 64 1 ++ [hidden], true⟩⟩]
  copyout := [⟨1, 32, 8⟩]

theorem text_unambiguous_listedCall :
    let first : Program := ⟨[listedCall "open (Index: 5)" 3], [2]⟩
    let second : Program := ⟨[listedCall "open (Index: 5)" 6], [2]⟩
    let third : Program := ⟨[listedCall "open" 3], [2]⟩
    first.NamesFit ∧ second.NamesFit ∧ third.NamesFit ∧ first ≠ second ∧
      first.text = second.text ∧ first.text ≠ third.text := by
  intro first second third
  have fits : first.NamesFit ∧ second.NamesFit ∧ third.NamesFit := by decide
  have hidden : first.calls.map Call.shown = second.calls.map Call.shown := by decide
  have apart : first.calls.map Call.shown ≠ third.calls.map Call.shown := by decide
  refine ⟨fits.1, fits.2.1, fits.2.2, by decide, ?_, fun same => ?_⟩
  · exact (text_unambiguous first second fits.1 fits.2.1).1.mpr ⟨rfl, hidden⟩
  · exact apart ((text_unambiguous first third fits.1 fits.2.2).1.mp same).2

end SyscallStream
