import SyscallStream.Proofs.Extension
import SyscallStream.Proofs.Offsets

/-! Bytes that are passed over. What fills up the last word of a blob is skipped, and so are the bytes
of a result's layout above its two lowest. A run finds out only as it goes where such bytes stand.
Whatever they are, the stream is decoded alike, with the same log, up to the end or up to the same
error. -/

namespace SyscallStream

def after {ε σ α β : Type} (step : EStateM ε σ α) (later : α → σ → List β) (s : σ) : List β :=
  match step s with
  | .ok a t => later a t
  | .error .. => []

theorem after_of_ok {ε σ α β : Type} {step : EStateM ε σ α} {later : α → σ → List β} {s t : σ}
    {a : α} (ran : step s = .ok a t) : after step later s = later a t := by
  rw [after, ran]

theorem mem_after {ε σ α β : Type} {step : EStateM ε σ α} {later : α → σ → List β} {s : σ}
    {b : β} : b ∈ after step later s ↔ ∃ a t, step s = .ok a t ∧ b ∈ later a t := by
  unfold after
  cases step s with
  | ok a t => simp
  | error error t => simp

namespace Decoder

/-- The positions that are passed over in a result argument: the reserved bytes of its layout. -/
def resultSkips (s : State) : List Nat :=
  after (onCursor readWord) (fun _ _ => List.range' (s.cursor.offset + 2) 6) s

/-- The positions that are passed over in a blob: from its end to where the reading goes on. -/
def blobSkips (size : UInt64) (s : State) : List Nat :=
  after (onCursor (readBlob size)) (fun blob t =>
    List.range' (s.cursor.offset + blob.length)
      (t.cursor.offset - (s.cursor.offset + blob.length))) s

def dataSkips : State → List Nat :=
  after (onCursor readWord) fun word => blobSkips (DataArg.sizeOfWord word)

def argSkips : State → List Nat :=
  after (onCursor readWord) fun word =>
    match ArgKind.ofWord? word with
    | some .result => resultSkips
    | some .data => dataSkips
    | _ => fun _ => []

def operandsSkips : (count : Nat) → State → List Nat
  | 0, _ => []
  | count + 1, s =>
    argSkips s ++ after operand (fun arg =>
      if arg.isScalar then after (pushArg arg) fun _ => operandsSkips count else fun _ => []) s

def callSkips (catalog : Catalog) (word : UInt64) : State → List Nat :=
  after (lookup catalog word) fun syscall => after (onCursor readWord) fun index =>
    after (start syscall index) fun _ => after (onCursor readWord) fun count =>
      operandsSkips count.toNat

def instructionSkips (catalog : Catalog) : State → List Nat :=
  after (onCursor readWord) fun word =>
    match Opcode.ofWord word with
    | .stop | .copyout => fun _ => []
    | .copyin => after commit fun _ => after (onCursor readWord) fun _ => argSkips
    | .call word => after commit fun _ => callSkips catalog word

def skips (catalog : Catalog) (s : State) : List Nat :=
  instructionSkips catalog s ++
    match ran : instruction catalog s with
    | .error .. => []
    | .ok false _ => []
    | .ok true t =>
      have := Nat.lt_of_lt_of_le (Nat.lt_add_of_pos_right (by decide))
        (instruction_takes catalog _ _ _ ran)
      skips catalog t
termination_by s.remaining

end Decoder

section Places

variable {bytes other : Bytes}

def Cursor.moved (other : Bytes) (c : Cursor) : Cursor where
  rest := other.drop c.offset
  offset := c.offset
  remaining := (other.drop c.offset).length
  remaining_eq := rfl

theorem Cursor.moved_advance (other : Bytes) (c : Cursor) (count : Nat) :
    (c.moved other).advance count = (c.advance count).moved other :=
  Cursor.ext List.drop_drop rfl

theorem Cursor.Stands.remaining_moved {c : Cursor} (stands : c.Stands bytes)
    (same : other.length = bytes.length) : (c.moved other).remaining = c.remaining := by
  have total := stands.offset_add_remaining
  change (other.drop c.offset).length = _
  rw [List.length_drop, same]
  omega

theorem Cursor.Stands.overflow_moved {c : Cursor} (stands : c.Stands bytes)
    (same : other.length = bytes.length) (needed : Nat) :
    (c.moved other).overflow needed = c.overflow needed := by
  rw [Cursor.overflow, stands.remaining_moved same]
  rfl

def State.moved (other : Bytes) (s : State) : State := { s with cursor := s.cursor.moved other }

theorem State.initial_moved (limits : Limits) (bytes other : Bytes) :
    State.initial limits other = (State.initial limits bytes).moved other := by
  unfold State.initial State.moved
  congr 1

theorem take_drop_eq {start count : Nat}
    (agree : ∀ i, start ≤ i → i < start + count → other[i]? = bytes[i]?) :
    (other.drop start).take count = (bytes.drop start).take count := by
  apply List.ext_getElem?
  intro i
  rw [List.getElem?_take, List.getElem?_take, List.getElem?_drop, List.getElem?_drop]
  by_cases inside : i < count
  · rw [if_pos inside, if_pos inside]
    exact agree _ (Nat.le_add_right _ _) (Nat.add_lt_add_left inside _)
  · rw [if_neg inside, if_neg inside]

end Places

namespace Decoder

/-- A position that a step may look at: it stands in front of where a success leaves the cursor. -/
def Reaches {α : Type} (step : Decoder α) (s : State) (i : Nat) : Prop :=
  s.cursor.offset ≤ i ∧ ∀ a t, step s = .ok a t → i < t.cursor.offset

/-- A step that passes over some positions and runs alike on every stream that differs there. -/
structure Blind {α : Type} (skips : State → List Nat) (step : Decoder α) : Prop where
  stands {bytes : Bytes} {s t : State} {a : α} (ran : step s = .ok a t)
    (stands : s.cursor.Stands bytes) : t.cursor.Stands bytes
  forward {s t : State} {a : α} (ran : step s = .ok a t) : s.cursor.offset ≤ t.cursor.offset
  ahead {s : State} {i : Nat} (skipped : i ∈ skips s) : s.cursor.offset ≤ i
  passed {s t : State} {a : α} {i : Nat} (ran : step s = .ok a t) (skipped : i ∈ skips s) :
    i < t.cursor.offset
  same {bytes other : Bytes} {s : State} (stands : s.cursor.Stands bytes)
    (length : other.length = bytes.length)
    (agree : ∀ i, Reaches step s i → i ∉ skips s → other[i]? = bytes[i]?) :
    step (s.moved other) = changed (State.moved other) (step s)

namespace Blind

variable {α β : Type} {skips : State → List Nat} {step : Decoder α} {next : α → Decoder β}

theorem of_detached (detached : ∀ s c, step { s with cursor := c } =
    changed (fun t => { t with cursor := c }) (step s)) : Blind (fun _ => []) step := by
  have own (s : State) : step s = changed (fun t => { t with cursor := s.cursor }) (step s) :=
    detached s s.cursor
  have rests {s t : State} {a : α} (ran : step s = .ok a t) : t.cursor = s.cursor := by
    have kept := own s
    rw [ran] at kept
    rw [(EStateM.Result.ok.inj kept).2]
  constructor
  · intro bytes s t a ran stands
    rw [rests ran]
    exact stands
  · intro s t a ran
    exact Nat.le_of_eq (congrArg Cursor.offset (rests ran).symm)
  · intro s i skipped
    cases skipped
  · intro s t a i ran skipped
    cases skipped
  · intro bytes other s stands length agree
    rw [State.moved, detached, own s]
    cases step s <;> rfl

theorem bind {later : α → State → List Nat} (first : Blind skips step)
    (second : ∀ a, Blind (later a) (next a)) :
    Blind (fun s => skips s ++ after step later s) (step >>= next) := by
  constructor
  · intro bytes s u b ran stands
    rcases bind_eq_ok.mp ran with ⟨a, t, before, behind⟩
    exact (second a).stands behind (first.stands before stands)
  · intro s u b ran
    rcases bind_eq_ok.mp ran with ⟨a, t, before, behind⟩
    exact Nat.le_trans (first.forward before) ((second a).forward behind)
  · intro s i skipped
    rcases List.mem_append.mp skipped with skipped | skipped
    · exact first.ahead skipped
    · rcases mem_after.mp skipped with ⟨a, t, before, skipped⟩
      exact Nat.le_trans (first.forward before) ((second a).ahead skipped)
  · intro s u b i ran skipped
    rcases bind_eq_ok.mp ran with ⟨a, t, before, behind⟩
    rw [after_of_ok before] at skipped
    rcases List.mem_append.mp skipped with skipped | skipped
    · exact Nat.lt_of_lt_of_le (first.passed before skipped) ((second a).forward behind)
    · exact (second a).passed behind skipped
  · intro bytes other s stands length agree
    change EStateM.bind step next _ = changed _ (EStateM.bind step next s)
    have start : step (s.moved other) = changed (State.moved other) (step s) := by
      apply first.same stands length
      intro i reached unskipped
      apply agree i
      · refine ⟨reached.1, fun b u ran => ?_⟩
        rcases bind_eq_ok.mp ran with ⟨a, t, before, behind⟩
        exact Nat.lt_of_lt_of_le (reached.2 a t before) ((second a).forward behind)
      · intro skipped
        rcases List.mem_append.mp skipped with skipped | skipped
        · exact unskipped skipped
        · rcases mem_after.mp skipped with ⟨a, t, before, skipped⟩
          have ahead := (second a).ahead skipped
          have short := reached.2 a t before
          omega
    unfold EStateM.bind
    rw [start]
    cases before : step s with
    | error error t => rfl
    | ok a t =>
      apply (second a).same (first.stands before stands) length
      intro i reached unskipped
      have forward := first.forward before
      apply agree i
      · refine ⟨Nat.le_trans forward reached.1, fun b u ran => ?_⟩
        rcases bind_eq_ok.mp ran with ⟨a', t', before', behind⟩
        rw [before] at before'
        cases before'
        exact reached.2 b u behind
      · rw [after_of_ok before]
        intro skipped
        rcases List.mem_append.mp skipped with skipped | skipped
        · have passed := first.passed before skipped
          have ahead := reached.1
          omega
        · exact unskipped skipped

theorem andThen {later : α → State → List Nat} (first : Blind (fun _ => []) step)
    (second : ∀ a, Blind (later a) (next a)) : Blind (after step later) (step >>= next) :=
  first.bind second

theorem ending (first : Blind skips step) (second : ∀ a, Blind (fun _ => []) (next a)) :
    Blind skips (step >>= next) := by
  have nothing (s : State) : skips s ++ after step (fun _ _ => []) s = skips s := by
    unfold after
    cases step s <;> exact List.append_nil _
  have both := first.bind second
  simp only [nothing] at both
  exact both

theorem pure (a : α) : Blind (fun _ => []) (Pure.pure a : Decoder α) :=
  of_detached fun _ _ => rfl

theorem throw (error : DecodeError) :
    Blind (fun _ => []) (MonadExcept.throw error : Decoder α) :=
  of_detached fun _ _ => rfl

end Blind

section Taking

variable {α : Type} {reader : Reader α}

/-- A reader that takes a fixed number of bytes and makes a value of those that it does not pass
over. -/
theorem onCursor_blind (size : Nat) (value : Bytes → α) {skips : State → List Nat}
    (whole : wordSize ∣ size)
    (reads : ∀ c, reader c = if size ≤ c.remaining then .ok (value c.rest) (c.advance size)
      else .error (c.overflow size) c)
    (inside : ∀ s i, i ∈ skips s → s.cursor.offset ≤ i ∧ i < s.cursor.offset + size)
    (sees : ∀ (bytes other : Bytes) (s : State), s.cursor.Stands bytes → size ≤ s.cursor.remaining →
      (∀ i, s.cursor.offset ≤ i → i < s.cursor.offset + size → i ∉ skips s →
        other[i]? = bytes[i]?) →
      value (other.drop s.cursor.offset) = value (bytes.drop s.cursor.offset)) :
    Blind skips (onCursor reader) := by
  have moves {s t : State} {a : α} (ran : onCursor reader s = .ok a t) :
      size ≤ s.cursor.remaining ∧ t.cursor = s.cursor.advance size := by
    rcases onCursor_eq_ok.mp ran with ⟨d, read, rfl⟩
    rw [reads] at read
    split at read
    · cases read
      exact ⟨by assumption, rfl⟩
    · cases read
  constructor
  · intro bytes s t a ran stands
    rw [(moves ran).2]
    exact stands.advance whole (moves ran).1
  · intro s t a ran
    rw [(moves ran).2]
    exact Nat.le_add_right _ _
  · intro s i skipped
    exact (inside s i skipped).1
  · intro s t a i ran skipped
    rw [(moves ran).2]
    exact (inside s i skipped).2
  · intro bytes other s stands length agree
    have left := stands.remaining_moved length
    unfold onCursor
    simp only [State.moved, reads, left]
    by_cases enough : size ≤ s.cursor.remaining
    · have seen : value (other.drop s.cursor.offset) = value s.cursor.rest := by
        rw [stands.rest]
        apply sees bytes other s stands enough
        intro i low high unskipped
        apply agree i ⟨low, fun a t ran => ?_⟩ unskipped
        rw [(moves ran).2]
        exact high
      simp only [if_pos enough, changed, Cursor.moved_advance]
      exact congrArg (EStateM.Result.ok · _) seen
    · simp only [if_neg enough, changed, stands.overflow_moved length]
      rfl

end Taking

theorem word_blind : Blind (fun _ => []) (onCursor readWord) := by
  apply onCursor_blind wordSize (fun rest => Word.ofBytes (rest.take wordSize)) (Nat.dvd_refl _)
  · intro c
    rfl
  · intro s i skipped
    cases skipped
  · intro bytes other s stands enough agree
    rw [take_drop_eq fun i low high => agree i low high List.not_mem_nil]

def lowBytes (word : UInt64) : UInt64 := word % 0x10000

theorem lowBytes_ofBytes (bytes : Bytes) :
    lowBytes (Word.ofBytes bytes) = lowBytes (Word.ofBytes (bytes.take 2)) := by
  apply UInt64.toNat_inj.mp
  simp only [lowBytes, Word.ofBytes, UInt64.toNat_mod, UInt64.toNat_ofNat']
  rcases bytes with _ | ⟨a, _ | ⟨b, rest⟩⟩
  · rfl
  · rfl
  · simp only [List.take_succ_cons, List.take_zero, littleEndian]
    have modulus : (0x10000 : UInt64).toNat = 0x10000 := rfl
    rw [modulus]
    omega

theorem ofLayout_lowBytes (layout index divOp addOp fallback : UInt64) :
    ResultArg.ofLayout (lowBytes layout) index divOp addOp fallback =
      ResultArg.ofLayout layout index divOp addOp fallback := by
  have modulus : (0x10000 : UInt64).toNat = 0x10000 := rfl
  simp only [ResultArg.ofLayout, lowBytes, UInt64.toNat_mod, modulus, ResultArg.mk.injEq,
    NumberFormat.mk.injEq, ← UInt8.toNat_inj, UInt8.toNat_ofNat', and_true]
  omega

theorem layout_blind :
    Blind resultSkips (onCursor do return lowBytes (← readWord)) := by
  have skipped_iff {s : State} {i : Nat} (skipped : i ∈ resultSkips s) :
      s.cursor.offset + 2 ≤ i ∧ i < s.cursor.offset + 2 + 6 := by
    rcases mem_after.mp skipped with ⟨_, _, _, member⟩
    exact List.mem_range'_1.mp member
  apply onCursor_blind wordSize (fun rest => lowBytes (Word.ofBytes (rest.take wordSize)))
    (Nat.dvd_refl _)
  · intro c
    change EStateM.bind readWord _ c = _
    unfold EStateM.bind readWord
    by_cases enough : wordSize ≤ c.remaining
    · simp only [if_pos enough]
      rfl
    · simp only [if_neg enough]
  · intro s i skipped
    have range := skipped_iff skipped
    unfold wordSize
    omega
  · intro bytes other s stands enough agree
    rw [lowBytes_ofBytes, lowBytes_ofBytes (List.take _ (bytes.drop _)), List.take_take,
      List.take_take, take_drop_eq]
    intro i low high
    have below : i < s.cursor.offset + 2 := high
    apply agree i low (by unfold wordSize; omega)
    intro skipped
    have range := skipped_iff skipped
    omega

theorem blob_blind (word : UInt64) :
    Blind (blobSkips (DataArg.sizeOfWord word)) (onCursor (readBlob (DataArg.sizeOfWord word))) := by
  generalize known : DataArg.sizeOfWord word = size
  have fits : size.toNat + 7 < UInt64.size := by
    rw [← known]
    exact DataArg.toNat_sizeOfWord_add_lt word
  have up := le_roundUp size.toNat
  have skipped_iff {s : State} {i : Nat} (skipped : i ∈ blobSkips size s) :
      s.cursor.offset + size.toNat ≤ i ∧ i < s.cursor.offset + roundUp size.toNat := by
    rcases mem_after.mp skipped with ⟨blob, t, ran, member⟩
    rcases onCursor_eq_ok.mp ran with ⟨d, read, rfl⟩
    rcases readBlob_ok read with ⟨enough, rfl, rfl⟩
    have long : (s.cursor.rest.take size.toNat).length = size.toNat := by
      rw [s.cursor.remaining_eq] at enough
      exact List.length_take_of_le (Nat.le_trans up enough)
    have range := List.mem_range'_1.mp member
    rw [long, Cursor.offset_advance] at range
    omega
  apply onCursor_blind (roundUp size.toNat) (fun rest => rest.take size.toNat)
    (Nat.dvd_of_mod_eq_zero (roundUp_mod size.toNat)) (readBlob_of_fits fits)
  · intro s i skipped
    have range := skipped_iff skipped
    omega
  · intro bytes other s stands enough agree
    apply take_drop_eq
    intro i low high
    apply agree i low (by omega)
    intro skipped
    have range := skipped_iff skipped
    omega

section Arguments

variable {catalog : Catalog}

theorem constArg_blind : Blind (fun _ => []) (steps catalog).constArg :=
  word_blind.ending fun _ => word_blind.ending fun _ => .pure _

theorem resultArg_blind : Blind resultSkips (steps catalog).resultArg := by
  have low : (steps catalog).resultArg = (onCursor do return lowBytes (← readWord)) >>= fun layout =>
      onCursor readWord >>= fun index => onCursor readWord >>= fun divOp =>
        onCursor readWord >>= fun addOp => onCursor readWord >>= fun fallback =>
          pure (.ofLayout layout index divOp addOp fallback) := by
    simp only [onCursor_bind, onCursor_pure, bind_assoc, pure_bind, ofLayout_lowBytes]
    rfl
  rw [low]
  exact layout_blind.ending fun _ => word_blind.ending fun _ => word_blind.ending fun _ =>
    word_blind.ending fun _ => word_blind.ending fun _ => .pure _

theorem dataArg_blind : Blind dataSkips (steps catalog).dataArg :=
  word_blind.andThen fun word => (blob_blind word).ending fun _ => .pure _

theorem chunks_blind (count : Nat) (buffer : ChunkBuffer) :
    Blind (fun _ => []) ((steps catalog).chunks count buffer) := by
  have chunk : Blind (fun _ => []) (steps catalog).chunk :=
    word_blind.ending fun _ => word_blind.ending fun _ => word_blind.ending fun _ => .pure _
  induction count generalizing buffer with
  | zero => exact .pure _
  | succ count ih => exact chunk.ending fun _ => ih _

theorem checksumArg_blind : Blind (fun _ => []) (steps catalog).checksumArg := by
  apply word_blind.ending
  intro size
  apply word_blind.ending
  intro word
  cases ChecksumKind.ofWord? word with
  | none => exact .throw _
  | some kind =>
    apply word_blind.ending
    intro count
    -- Room for chunks depends on what is left, but does not show in the chunks.
    rw [funext fun buffer => (steps catalog).chunks_bind count.toNat buffer fun chunks =>
      Pure.pure (ChecksumArg.mk size kind chunks.toList)]
    change Blind _ ((steps catalog).chunks count.toNat ⟨0, #[]⟩ >>= _)
    exact (chunks_blind _ _).ending fun _ => .pure _

theorem arg_blind : Blind argSkips (onCursor Arg.read) := by
  -- No catalog is looked at for an argument.
  rw [← @arg_steps ⟨0, fun _ => none⟩]
  apply word_blind.andThen
  intro word
  cases ArgKind.ofWord? word with
  | none => exact .throw _
  | some kind =>
    cases kind with
    | const => exact constArg_blind.ending fun _ => .pure _
    | result => exact resultArg_blind.ending fun _ => .pure _
    | data => exact dataArg_blind.ending fun _ => .pure _
    | checksum => exact checksumArg_blind.ending fun _ => .pure _

theorem assign_blind (index value : UInt64) : Blind (fun _ => []) (assign index value) := by
  apply Blind.of_detached
  intro s c
  by_cases below : s.vars.admits index
  · simp only [assign, below, if_true, changed]
  · simp only [assign, below, changed]
    rfl

theorem operand_blind : Blind argSkips operand := by
  apply arg_blind.ending
  intro arg
  cases arg with
  | result arg => exact (assign_blind _ _).ending fun _ => .pure _
  | _ => exact .pure _

theorem pushArg_blind (arg : Arg) : Blind (fun _ => []) (pushArg arg) :=
  .of_detached fun _ _ => rfl

theorem operands_blind (count position : Nat) :
    Blind (operandsSkips count) (operands count position) := by
  induction count generalizing position with
  | zero => exact .pure _
  | succ count ih =>
    apply operand_blind.bind
    intro arg
    cases arg.isScalar with
    | true => exact (pushArg_blind arg).andThen fun _ => ih _
    | false => exact .of_detached fun _ _ => rfl

end Arguments

section Instructions

variable {catalog : Catalog}

theorem commit_blind : Blind (fun _ => []) commit := by
  apply Blind.of_detached
  intro s c
  unfold commit
  cases s.pending.syscall? with
  | none => rfl
  | some syscall =>
    simp only
    cases s.vars.referenceAll s.pending.references <;> rfl

theorem lookup_blind (word : UInt64) : Blind (fun _ => []) (lookup catalog word) := by
  unfold lookup
  cases catalog.entry? word with
  | none => exact .throw _
  | some syscall =>
    by_cases own : syscall.id = word
    · simp only [own, if_true]
      exact .pure _
    · simp only [own, if_false]
      exact .throw _

theorem call_blind (word : UInt64) : Blind (callSkips catalog word) (call catalog word) :=
  (lookup_blind word).andThen fun _ => word_blind.andThen fun _ =>
    Blind.andThen (.of_detached fun _ _ => rfl) fun _ => word_blind.andThen fun count =>
      operands_blind count.toNat 0

theorem instruction_blind (catalog : Catalog) :
    Blind (instructionSkips catalog) (instruction catalog) := by
  apply word_blind.andThen
  intro word
  cases Opcode.ofWord word with
  | stop => exact commit_blind.ending fun _ => .pure _
  | copyin =>
    exact commit_blind.andThen fun _ => word_blind.andThen fun _ => operand_blind.ending fun _ =>
      Blind.ending (.of_detached fun _ _ => rfl) fun _ => .pure _
  | copyout =>
    exact word_blind.ending fun _ => word_blind.ending fun _ => word_blind.ending fun _ =>
      Blind.ending (.of_detached fun _ _ => rfl) fun _ => .pure _
  | call word => exact commit_blind.andThen fun _ => (call_blind word).ending fun _ => .pure _

theorem skips_eq (s : State) :
    skips catalog s = instructionSkips catalog s ++
      after (instruction catalog) (fun more => if more then skips catalog else fun _ => []) s := by
  rw [skips]
  unfold after
  split
  · rename_i ran
    rw [ran]
  · rename_i ran
    simp only [ran, if_false, Bool.false_eq_true]
  · rename_i ran
    simp only [ran, if_true]

theorem skips_of_true {s t : State} (ran : instruction catalog s = .ok true t) :
    skips catalog s = instructionSkips catalog s ++ skips catalog t := by
  rw [skips_eq, after_of_ok ran, if_pos rfl]

theorem skips_of_stop {s : State} (ended : ∀ t, instruction catalog s ≠ .ok true t) :
    skips catalog s = instructionSkips catalog s := by
  rw [skips_eq]
  unfold after
  cases ran : instruction catalog s with
  | error error t => exact List.append_nil _
  | ok more t =>
    cases more with
    | false => exact List.append_nil _
    | true => exact absurd ran (ended t)

theorem skips_ahead {s : State} {i : Nat} (skipped : i ∈ skips catalog s) :
    s.cursor.offset ≤ i := by
  have blind := instruction_blind catalog
  induction s using instructions.induct catalog with
  | case1 s error t ran =>
    rw [skips_of_stop (by simp [ran])] at skipped
    exact blind.ahead skipped
  | case2 s t ran =>
    rw [skips_of_stop (by simp [ran])] at skipped
    exact blind.ahead skipped
  | case3 s t ran shorter ih =>
    rw [skips_of_true ran] at skipped
    rcases List.mem_append.mp skipped with own | later
    · exact blind.ahead own
    · exact Nat.le_trans (blind.forward ran) (ih later)

theorem instructions_blind (catalog : Catalog) {bytes other : Bytes} {s : State}
    (stands : s.cursor.Stands bytes)
    (length : other.length = bytes.length)
    (agree : ∀ i, s.cursor.offset ≤ i → i ∉ skips catalog s → other[i]? = bytes[i]?) :
    instructions catalog (s.moved other) =
      changed (State.moved other) (instructions catalog s) := by
  have blind := instruction_blind catalog
  induction s using instructions.induct catalog with
  | case1 s error t ran =>
    rw [skips_of_stop (by simp [ran])] at agree
    have same := blind.same stands length fun i reached => agree i reached.1
    rw [ran] at same
    rw [instructions_of_error ran, instructions_of_error same]
    rfl
  | case2 s t ran =>
    rw [skips_of_stop (by simp [ran])] at agree
    have same := blind.same stands length fun i reached => agree i reached.1
    rw [ran] at same
    rw [instructions_of_false ran, instructions_of_false same]
    rfl
  | case3 s t ran shorter ih =>
    rw [skips_of_true ran] at agree
    have same : instruction catalog (s.moved other) = .ok true (t.moved other) := by
      have same := blind.same stands length fun i reached own => agree i reached.1 fun skipped => by
        rcases List.mem_append.mp skipped with skipped | later
        · exact own skipped
        · have ahead := skips_ahead later
          have short := reached.2 true t ran
          omega
      rw [ran] at same
      exact same
    rw [instructions_of_true ran, instructions_of_true same]
    apply ih (blind.stands ran stands)
    intro i behind unskipped
    apply agree i (Nat.le_trans (blind.forward ran) behind)
    intro skipped
    rcases List.mem_append.mp skipped with skipped | later
    · have passed := blind.passed ran skipped
      omega
    · exact unskipped later

end Instructions

end Decoder

/-- A stream is decoded alike whatever stands where its run passes over it: to the same program or
the same error, with the same log, and the program is written alike. -/
theorem decode_unread (catalog : Catalog) (limits : Limits) (bytes other : Bytes)
    (length : other.length = bytes.length)
    (agree : ∀ i, i ∉ Decoder.skips catalog (.initial limits bytes) → other[i]? = bytes[i]?) :
    decodeWithLog catalog limits other = decodeWithLog catalog limits bytes ∧
      ∀ program, decode catalog limits bytes = .ok program →
        ∃ twin, decode catalog limits other = .ok twin ∧ twin.encode = program.encode := by
  have run : Decoder.instructions catalog (.initial limits other) =
      changed (State.moved other) (Decoder.instructions catalog (.initial limits bytes)) := by
    rw [State.initial_moved limits bytes other]
    exact Decoder.instructions_blind catalog (Cursor.stands_ofBytes bytes) length
      fun i _ => agree i
  have alike : decodeWithLog catalog limits other = decodeWithLog catalog limits bytes := by
    unfold decodeWithLog
    rw [run, length]
    cases Decoder.instructions catalog (.initial limits bytes) with
    | error error s => rfl
    | ok done s => rfl
  refine ⟨alike, ?_⟩
  intro program accepted
  refine ⟨program, ?_, rfl⟩
  rw [decode, alike]
  exact accepted

def quietStream : Bytes :=
  encodeWords [copyoutWord, 0, 16, 8, copyinWord, 16, 2, 0x8000000000000002] ++
    [0x2f, 0x61, 0, 0, 0, 0, 0, 0] ++
    encodeWords [0, 0, 2, 1, 8, 1, 0, 0, 7, 0, 8, 2, stopWord] ++ [9, 9, 9]

theorem agree_of_inside {bytes other : Bytes} {spots : List Nat}
    (length : other.length = bytes.length)
    (inside : ∀ i < bytes.length, i ∈ spots ∨ other[i]? = bytes[i]?) :
    ∀ i, i ∉ spots → other[i]? = bytes[i]? := by
  intro i apart
  by_cases short : i < bytes.length
  · exact (inside i short).resolve_left apart
  · rw [List.getElem?_eq_none (by omega), List.getElem?_eq_none (by omega)]

/-- A stream that is accepted, and the same stream cut off inside its result argument. -/
theorem decode_unread_scrambled :
    (quietStream ≠ scrambledStream ∧
      decode sampleCatalog {} scrambledStream = .ok sampleProgram ∧
      decodeWithLog sampleCatalog {} quietStream =
        decodeWithLog sampleCatalog {} scrambledStream ∧
      ∃ twin, decode sampleCatalog {} quietStream = .ok twin ∧
        twin.encode = sampleProgram.encode) ∧
    (quietStream.take 130 ≠ scrambledStream.take 130 ∧
      decode sampleCatalog {} (scrambledStream.take 130) = .error (.overflow 128 8 2) ∧
      decodeWithLog sampleCatalog {} (quietStream.take 130) =
        decodeWithLog sampleCatalog {} (scrambledStream.take 130)) := by
  have padding : Decoder.skips sampleCatalog (.initial {} scrambledStream) =
      [66, 67, 68, 69, 70, 71, 106, 107, 108, 109, 110, 111] := by
    decide +kernel
  have cut : Decoder.skips sampleCatalog (.initial {} (scrambledStream.take 130)) =
      [66, 67, 68, 69, 70, 71, 106, 107, 108, 109, 110, 111] := by
    decide +kernel
  have accepted : decode sampleCatalog {} scrambledStream = .ok sampleProgram := by
    decide +kernel
  have refused : decode sampleCatalog {} (scrambledStream.take 130) =
      .error (.overflow 128 8 2) := by
    decide +kernel
  constructor
  · have length : quietStream.length = scrambledStream.length := by decide +kernel
    have alike := decode_unread sampleCatalog {} scrambledStream quietStream length
      (agree_of_inside length (by rw [padding]; decide +kernel))
    exact ⟨by decide +kernel, accepted, alike.1, alike.2 _ accepted⟩
  · have length : (quietStream.take 130).length = (scrambledStream.take 130).length := by
      decide +kernel
    have alike := decode_unread sampleCatalog {} (scrambledStream.take 130)
      (quietStream.take 130) length (agree_of_inside length (by rw [cut]; decide +kernel))
    exact ⟨by decide +kernel, refused, alike.1⟩

end SyscallStream
