import SyscallStream.Decode.Arg
import SyscallStream.Proofs.Wire

/-! The readers of arguments accept exactly the wire forms. -/

namespace SyscallStream

theorem bind_eq_ok {ε σ α β : Type} {step : EStateM ε σ α} {next : α → EStateM ε σ β}
    {s t : σ} {b : β} :
    (step >>= next) s = .ok b t ↔ ∃ a u, step s = .ok a u ∧ next a u = .ok b t := by
  change EStateM.bind step next s = .ok b t ↔ _
  unfold EStateM.bind
  cases step s with
  | ok a u =>
    constructor
    · intro run
      exact ⟨a, u, rfl, run⟩
    · intro given
      rcases given with ⟨_, _, same, run⟩
      cases same
      exact run
  | error error u => simp

theorem bind_eq_error {ε σ α β : Type} {step : EStateM ε σ α} {next : α → EStateM ε σ β}
    {s t : σ} {error : ε} :
    (step >>= next) s = .error error t ↔
      step s = .error error t ∨ ∃ a u, step s = .ok a u ∧ next a u = .error error t := by
  change EStateM.bind step next s = _ ↔ _
  unfold EStateM.bind
  cases step s with
  | ok a u =>
    constructor
    · intro run
      exact .inr ⟨a, u, rfl, run⟩
    · intro given
      rcases given with same | ⟨_, _, same, run⟩
      · cases same
      · cases same
        exact run
  | error error u => simp

theorem pure_eq_ok {ε σ α : Type} {a b : α} {s t : σ} :
    (pure a : EStateM ε σ α) s = .ok b t ↔ a = b ∧ s = t := by
  change EStateM.Result.ok a s = .ok b t ↔ _
  simp

theorem get_eq_ok {ε σ : Type} {a s t : σ} :
    (get : EStateM ε σ σ) s = .ok a t ↔ s = a ∧ s = t := by
  change EStateM.Result.ok s s = .ok a t ↔ _
  simp

namespace Cursor

def Passes (c : Cursor) (bytes : Bytes) (d : Cursor) : Prop :=
  c.rest = bytes ++ d.rest ∧ d.offset = c.offset + bytes.length

variable {c d : Cursor} {front back bytes : Bytes}

theorem passes_take {count : Nat} (enough : count ≤ c.remaining) :
    c.Passes (c.rest.take count) (c.advance count) := by
  constructor
  · rw [rest_advance, List.take_append_drop]
  · rw [offset_advance, length_take enough]

theorem Passes.eq_advance (passes : c.Passes bytes d) : d = c.advance bytes.length := by
  apply Cursor.ext
  · rw [rest_advance, passes.1, List.drop_left]
  · rw [offset_advance, passes.2]

theorem Passes.length_le (passes : c.Passes bytes d) : bytes.length ≤ c.remaining := by
  rw [c.remaining_eq, passes.1, List.length_append]
  omega

theorem Passes.take_eq (passes : c.Passes bytes d) : c.rest.take bytes.length = bytes := by
  rw [passes.1, List.take_left]

@[simp]
theorem passes_nil : c.Passes [] d ↔ c = d := by
  constructor
  · intro passes
    exact Cursor.ext passes.1 passes.2.symm
  · intro equal
    subst equal
    exact ⟨rfl, rfl⟩

theorem passes_append :
    c.Passes (front ++ back) d ↔ ∃ u, c.Passes front u ∧ u.Passes back d := by
  constructor
  · intro passes
    have enough : front.length ≤ c.remaining := by
      have whole := passes.length_le
      rw [List.length_append] at whole
      omega
    have first := passes_take enough
    have start : c.rest.take front.length = front := by
      rw [passes.1, List.append_assoc, List.take_left]
    rw [start] at first
    refine ⟨c.advance front.length, first, ?_, ?_⟩
    · rw [rest_advance, passes.1, List.append_assoc, List.drop_left]
    · rw [passes.2, offset_advance, List.length_append, Nat.add_assoc]
  · intro given
    rcases given with ⟨u, first, second⟩
    constructor
    · rw [first.1, second.1, List.append_assoc]
    · rw [second.2, first.2, List.length_append, Nat.add_assoc]

@[simp]
theorem passes_encodeWords_nil : c.Passes (encodeWords []) d ↔ c = d :=
  passes_nil

@[simp]
theorem passes_encodeWords_cons {word : UInt64} {words : List UInt64} :
    c.Passes (encodeWords (word :: words)) d ↔
      ∃ u, c.Passes (Word.toBytes word) u ∧ u.Passes (encodeWords words) d :=
  passes_append

theorem passes_encodeWords_cons_append {word : UInt64} {words : List UInt64} :
    c.Passes (encodeWords (word :: words) ++ back) d ↔
      ∃ u, c.Passes (Word.toBytes word) u ∧ u.Passes (encodeWords words ++ back) d := by
  rw [encodeWords, List.flatMap_cons, List.append_assoc]
  exact passes_append

end Cursor

theorem readWord_eq_ok {c d : Cursor} {word : UInt64} :
    readWord c = .ok word d ↔ c.Passes (Word.toBytes word) d := by
  constructor
  · intro read
    rcases readWord_ok read with ⟨enough, rfl, rfl⟩
    rw [Word.toBytes_ofBytes (Cursor.length_take enough)]
    exact Cursor.passes_take enough
  · intro passes
    have enough := passes.length_le
    have taken := passes.take_eq
    have moved := passes.eq_advance
    rw [Word.length_toBytes] at enough taken moved
    rw [readWord, if_pos enough, taken, Word.ofBytes_toBytes, moved]

theorem readBlob_of_fits {size : UInt64} (fits : size.toNat + 7 < UInt64.size) (c : Cursor) :
    readBlob size c =
      if roundUp size.toNat ≤ c.remaining then
        .ok (c.rest.take size.toNat) (c.advance (roundUp size.toNat))
      else .error (c.overflow (roundUp size.toNat)) c := by
  cases rounded : paddedSize? size with
  | none =>
    rw [paddedSize?, if_pos fits] at rounded
    cases rounded
  | some padded =>
    simp only [readBlob, rounded, (paddedSize?_eq_some.mp rounded).2]

def Demands {α : Type} (size : Nat) (reader : Reader α) : Prop :=
  ∀ c, (size ≤ c.remaining ∧ ∃ a, reader c = .ok a (c.advance size)) ∨
    c.remaining < size ∧ reader c = .error (c.overflow size) c

theorem readWord_demands : Demands wordSize readWord := by
  intro c
  rcases Nat.lt_or_ge c.remaining wordSize with short | enough
  · exact .inr ⟨short, if_neg (Nat.not_le.mpr short)⟩
  · exact .inl ⟨enough, _, if_pos enough⟩

theorem readBlob_demands {size : UInt64} (fits : size.toNat + 7 < UInt64.size) :
    Demands (roundUp size.toNat) (readBlob size) := by
  intro c
  rw [readBlob_of_fits fits]
  rcases Nat.lt_or_ge c.remaining (roundUp size.toNat) with short | enough
  · exact .inr ⟨short, if_neg (Nat.not_le.mpr short)⟩
  · exact .inl ⟨enough, _, if_pos enough⟩

theorem readBlob_eq_ok {c d : Cursor} {size : UInt64} {blob : Bytes}
    (fits : size.toNat + 7 < UInt64.size) :
    readBlob size c = .ok blob d ↔
      ∃ filler, c.Passes (blob ++ filler) d ∧ blob.length = size.toNat ∧
        blob.length + filler.length = roundUp size.toNat := by
  have le := le_roundUp size.toNat
  constructor
  · intro read
    rcases readBlob_ok read with ⟨enough, rfl, rfl⟩
    have length : (c.rest.take size.toNat).length = size.toNat :=
      Cursor.length_take (Nat.le_trans le enough)
    have split : c.rest.take (roundUp size.toNat) = c.rest.take size.toNat ++
        (c.rest.drop size.toNat).take (roundUp size.toNat - size.toNat) := by
      rw [← List.take_add, Nat.add_sub_of_le le]
    refine ⟨(c.rest.drop size.toNat).take (roundUp size.toNat - size.toNat), ?_, length, ?_⟩
    · rw [← split]
      exact Cursor.passes_take enough
    · have remaining := c.remaining_eq
      rw [length, List.length_take, List.length_drop]
      omega
  · intro given
    rcases given with ⟨filler, passes, length, padded⟩
    have total : (blob ++ filler).length = roundUp size.toNat := by
      rw [List.length_append, padded]
    have enough := passes.length_le
    have moved := passes.eq_advance
    rw [total] at enough moved
    have start : c.rest.take size.toNat = blob := by
      rw [passes.1, List.append_assoc, ← length, List.take_left]
    rw [readBlob_of_fits fits, if_pos enough, start, moved]

theorem ConstArg.read_eq_ok {c d : Cursor} {arg : ConstArg} :
    ConstArg.read c = .ok arg d ↔ c.Passes (encodeWords [arg.layout, arg.value]) d := by
  simp only [ConstArg.read, ArgSteps.constArg, Reader.steps, bind_eq_ok, pure_eq_ok, readWord_eq_ok,
    Cursor.passes_encodeWords_cons, Cursor.passes_encodeWords_nil]
  constructor
  · intro ran
    rcases ran with ⟨layout, u, first, value, v, second, rfl, rfl⟩
    rw [ConstArg.layout_ofLayout]
    exact ⟨u, first, v, second, rfl⟩
  · intro given
    rcases given with ⟨u, first, v, second, rfl⟩
    exact ⟨arg.layout, u, first, arg.value, v, second, arg.ofLayout_layout, rfl⟩

/-- Size and format are the low half-words of the layout; what stands above them is lost. -/
theorem ResultArg.ofLayout_eq_iff {layout index divOp addOp fallback : UInt64}
    {arg : ResultArg} :
    ResultArg.ofLayout layout index divOp addOp fallback = arg ↔
      layout % 0x10000 = arg.layout ∧ index = arg.index ∧ divOp = arg.divOp ∧
        addOp = arg.addOp ∧ fallback = arg.fallback := by
  have width : (0x10000 : UInt64).toNat = 0x10000 := rfl
  have low : (ResultArg.ofLayout layout index divOp addOp fallback).layout =
      layout % 0x10000 := by
    have bound := layout.toNat_lt
    apply UInt64.toNat_inj.mp
    rw [UInt64.toNat_mod, width]
    simp only [ResultArg.layout, ResultArg.ofLayout, UInt64.toNat_ofNat', UInt8.toNat_ofNat']
    omega
  constructor
  · intro equal
    subst equal
    exact ⟨low.symm, rfl, rfl, rfl, rfl⟩
  · intro given
    rcases given with ⟨agrees, rfl, rfl, rfl, rfl⟩
    calc
      ResultArg.ofLayout layout arg.index arg.divOp arg.addOp arg.fallback =
          ResultArg.ofLayout arg.layout arg.index arg.divOp arg.addOp arg.fallback := by
        rw [← agrees]
        simp only [ResultArg.ofLayout, ResultArg.mk.injEq, NumberFormat.mk.injEq, and_true,
          UInt64.toNat_mod, width, ← UInt8.toNat_inj, UInt8.toNat_ofNat']
        omega
      _ = arg := arg.ofLayout_layout

theorem ResultArg.read_eq_ok {c d : Cursor} {arg : ResultArg} :
    ResultArg.read c = .ok arg d ↔ ∃ layout : UInt64, layout % 0x10000 = arg.layout ∧
      c.Passes (encodeWords [layout, arg.index, arg.divOp, arg.addOp, arg.fallback]) d := by
  simp only [ResultArg.read, ArgSteps.resultArg, Reader.steps, bind_eq_ok, pure_eq_ok,
    readWord_eq_ok, Cursor.passes_encodeWords_cons, Cursor.passes_encodeWords_nil,
    ResultArg.ofLayout_eq_iff]
  constructor
  · intro ran
    rcases ran with
      ⟨layout, s, first, index, t, second, divOp, u, third, addOp, v, fourth, fallback, w, fifth,
        ⟨agrees, rfl, rfl, rfl, rfl⟩, rfl⟩
    exact ⟨layout, agrees, s, first, t, second, u, third, v, fourth, w, fifth, rfl⟩
  · intro given
    rcases given with ⟨layout, agrees, s, first, t, second, u, third, v, fourth, w, fifth, rfl⟩
    exact ⟨layout, s, first, arg.index, t, second, arg.divOp, u, third, arg.addOp, v, fourth,
      arg.fallback, w, fifth, ⟨agrees, rfl, rfl, rfl, rfl⟩, rfl⟩

theorem DataArg.toNat_sizeOfWord_add_lt (word : UInt64) :
    (DataArg.sizeOfWord word).toNat + 7 < UInt64.size := by
  have short := DataArg.toNat_sizeOfWord_lt word
  rw [DataArg.toNat_readableFlag] at short
  unfold UInt64.size
  omega

theorem DataArg.eq_sizeWord {word : UInt64} {arg : DataArg}
    (length : arg.bytes.length = (DataArg.sizeOfWord word).toNat)
    (flag : DataArg.readableOfWord word = arg.readable) : word = arg.sizeWord := by
  have bound := word.toNat_lt
  apply UInt64.toNat_inj.mp
  rw [DataArg.sizeWord, UInt64.toNat_ofNat', length, ← flag, DataArg.toNat_readableFlag]
  simp only [DataArg.sizeOfWord, DataArg.readableOfWord, UInt64.toNat_mod,
    DataArg.toNat_readableFlag, UInt64.le_iff_toNat_le, decide_eq_true_eq]
  split <;> omega

theorem DataArg.read_eq_ok {c d : Cursor} {arg : DataArg} :
    DataArg.read c = .ok arg d ↔ ∃ filler, arg.bytes.length < readableFlag.toNat ∧
      arg.bytes.length + filler.length = roundUp arg.bytes.length ∧
      c.Passes (encodeWords [arg.sizeWord] ++ (arg.bytes ++ filler)) d := by
  simp only [DataArg.read, ArgSteps.dataArg, Reader.steps, bind_eq_ok, pure_eq_ok, readWord_eq_ok,
    readBlob_eq_ok (DataArg.toNat_sizeOfWord_add_lt _)]
  constructor
  · intro ran
    rcases ran with ⟨word, u, first, bytes, v, ⟨filler, second, length, padded⟩, rfl, rfl⟩
    have short : bytes.length < readableFlag.toNat := by
      rw [length]
      exact DataArg.toNat_sizeOfWord_lt word
    have same : word = DataArg.sizeWord ⟨bytes, DataArg.readableOfWord word⟩ :=
      DataArg.eq_sizeWord length rfl
    refine ⟨filler, short, by rw [padded, length], Cursor.passes_append.mpr ⟨u, ?_, second⟩⟩
    rw [← same]
    exact Cursor.passes_encodeWords_cons.mpr ⟨u, first, Cursor.passes_encodeWords_nil.mpr rfl⟩
  · intro given
    rcases given with ⟨filler, short, fills, passes⟩
    rcases arg.ofWord_sizeWord short with ⟨length, flag⟩
    rcases Cursor.passes_append.mp passes with ⟨u, first, second⟩
    rcases Cursor.passes_encodeWords_cons.mp first with ⟨v, first, same⟩
    obtain rfl := Cursor.passes_encodeWords_nil.mp same
    refine ⟨arg.sizeWord, v, first, arg.bytes, d, ⟨filler, second, length.symm, ?_⟩, ?_, rfl⟩
    · rw [fills, length]
    · rw [flag]

theorem Chunk.read_eq_ok {c d : Cursor} {chunk : Chunk} :
    Chunk.read c = .ok chunk d ↔ c.Passes chunk.encode d := by
  simp only [Chunk.read, ArgSteps.chunk, Reader.steps, bind_eq_ok, pure_eq_ok, readWord_eq_ok,
    Chunk.encode, Cursor.passes_encodeWords_cons, Cursor.passes_encodeWords_nil]
  constructor
  · intro ran
    rcases ran with ⟨kind, s, first, value, t, second, size, u, third, rfl, rfl⟩
    exact ⟨s, first, t, second, u, third, rfl⟩
  · intro given
    rcases given with ⟨s, first, t, second, u, third, rfl⟩
    exact ⟨chunk.kind.code, s, first, chunk.value, t, second, chunk.size, u, third, rfl, rfl⟩

theorem Chunk.reserve_eq_ok {count : UInt64} {buffer : ChunkBuffer} {c d : Cursor} :
    Chunk.reserve count c = .ok buffer d ↔ buffer = .withRoom (Chunk.capacity c count) ∧ d = c := by
  simp only [Chunk.reserve, bind_eq_ok, get_eq_ok, pure_eq_ok]
  constructor
  · intro ran
    rcases ran with ⟨_, _, ⟨rfl, rfl⟩, rfl, rfl⟩
    exact ⟨rfl, rfl⟩
  · intro given
    rcases given with ⟨rfl, rfl⟩
    exact ⟨_, _, ⟨rfl, rfl⟩, rfl, rfl⟩

theorem ChunkBuffer.toList_withRoom_append (room : Nat) (more : List Chunk) :
    ((withRoom room).chunks ++ more).toList = more :=
  Array.toList_appendList

theorem Chunk.readMany_eq_ok {count : Nat} {read filled : ChunkBuffer} {c d : Cursor} :
    Chunk.readMany count read c = .ok filled d ↔ ∃ more : List Chunk, more.length = count ∧
      filled = { read with chunks := read.chunks ++ more } ∧
      c.Passes (more.flatMap Chunk.encode) d := by
  induction count generalizing read c with
  | zero =>
    simp only [Chunk.readMany_zero, pure_eq_ok, List.length_eq_zero_iff]
    constructor
    · intro ran
      rcases ran with ⟨rfl, rfl⟩
      exact ⟨[], rfl, by simp, Cursor.passes_nil.mpr rfl⟩
    · intro given
      rcases given with ⟨more, rfl, rfl, passes⟩
      exact ⟨by simp, Cursor.passes_nil.mp passes⟩
  | succ count ih =>
    simp only [Chunk.readMany_succ, bind_eq_ok, Chunk.read_eq_ok, ih, ChunkBuffer.push]
    constructor
    · intro ran
      rcases ran with ⟨chunk, u, first, more, rfl, rfl, rest⟩
      refine ⟨chunk :: more, rfl, by simp, ?_⟩
      exact Cursor.passes_append.mpr ⟨u, first, rest⟩
    · intro given
      rcases given with ⟨more, length, rfl, passes⟩
      cases more with
      | nil => cases length
      | cons chunk more =>
        rcases Cursor.passes_append.mp passes with ⟨u, first, rest⟩
        exact ⟨chunk, u, first, more, Nat.succ.inj length, by simp, rest⟩

theorem ChecksumArg.read_eq_ok {c d : Cursor} {arg : ChecksumArg} :
    ChecksumArg.read c = .ok arg d ↔ arg.chunks.length < UInt64.size ∧
      c.Passes (encodeWords [arg.size, arg.kind.word, UInt64.ofNat arg.chunks.length] ++
        arg.chunks.flatMap Chunk.encode) d := by
  simp only [ChecksumArg.read_eq, bind_eq_ok, readWord_eq_ok, Cursor.passes_append,
    Cursor.passes_encodeWords_cons, Cursor.passes_encodeWords_nil]
  constructor
  · intro ran
    rcases ran with ⟨size, s, first, word, t, second, run⟩
    cases known : ChecksumKind.ofWord? word with
    | none =>
      rw [known] at run
      cases run
    | some kind =>
      obtain rfl := ChecksumKind.ofWord?_eq_some.mp known
      simp only [known, bind_eq_ok, readWord_eq_ok, Chunk.reserve_eq_ok, pure_eq_ok,
        Chunk.readMany_eq_ok] at run
      obtain ⟨count, u, third, _, _, ⟨rfl, rfl⟩, _, v, ⟨more, length, rfl, last⟩, rfl, rfl⟩ := run
      have announced : UInt64.ofNat more.length = count := by rw [length, UInt64.ofNat_toNat]
      rw [ChunkBuffer.toList_withRoom_append]
      refine ⟨?_, _, ⟨s, first, t, second, _, ?_, rfl⟩, last⟩
      · rw [length]
        exact count.toNat_lt
      · rw [announced]
        exact third
  · intro given
    rcases given with ⟨counted, u, ⟨s, first, t, second, _, third, rfl⟩, last⟩
    refine ⟨arg.size, s, first, arg.kind.word, t, second, ?_⟩
    simp only [ChecksumKind.ofWord?_word, bind_eq_ok, readWord_eq_ok, Chunk.reserve_eq_ok,
      pure_eq_ok, Chunk.readMany_eq_ok]
    refine ⟨UInt64.ofNat arg.chunks.length, _, third, _, _, ⟨rfl, rfl⟩, _, d,
      ⟨arg.chunks, ?_, rfl, last⟩, ?_, rfl⟩
    · exact (UInt64.toNat_ofNat_of_lt' counted).symm
    · rw [ChunkBuffer.toList_withRoom_append]

/-- Exactness for arguments: what is read is a wire form of the argument, and every wire form of
it is read. -/
theorem Arg.read_eq_ok {c d : Cursor} {arg : Arg} :
    Arg.read c = .ok arg d ↔ ∃ bytes, arg.Wire bytes ∧ c.Passes bytes d := by
  simp only [Arg.read_eq, bind_eq_ok, readWord_eq_ok]
  constructor
  · intro ran
    rcases ran with ⟨word, u, first, run⟩
    rcases known : ArgKind.ofWord? word with _ | kind
    · rw [known] at run
      cases run
    · obtain rfl := ArgKind.ofWord?_eq_some.mp known
      rw [known] at run
      cases kind with
      | const =>
        obtain ⟨arg, v, read, rfl, rfl⟩ := by
          simpa only [bind_eq_ok, pure_eq_ok, ConstArg.read_eq_ok] using run
        exact ⟨_, .const arg, Cursor.passes_encodeWords_cons.mpr ⟨u, first, read⟩⟩
      | result =>
        obtain ⟨arg, v, ⟨layout, agrees, read⟩, rfl, rfl⟩ := by
          simpa only [bind_eq_ok, pure_eq_ok, ResultArg.read_eq_ok] using run
        exact ⟨_, .result arg layout agrees,
          Cursor.passes_encodeWords_cons.mpr ⟨u, first, read⟩⟩
      | data =>
        obtain ⟨arg, v, ⟨filler, short, fills, read⟩, rfl, rfl⟩ := by
          simpa only [bind_eq_ok, pure_eq_ok, DataArg.read_eq_ok] using run
        exact ⟨_, .data arg filler short fills,
          Cursor.passes_encodeWords_cons_append.mpr ⟨u, first, read⟩⟩
      | checksum =>
        obtain ⟨arg, v, ⟨counted, read⟩, rfl, rfl⟩ := by
          simpa only [bind_eq_ok, pure_eq_ok, ChecksumArg.read_eq_ok] using run
        exact ⟨_, .checksum arg counted,
          Cursor.passes_encodeWords_cons_append.mpr ⟨u, first, read⟩⟩
  · intro given
    rcases given with ⟨bytes, wire, passes⟩
    cases wire with
    | const arg =>
      rcases Cursor.passes_encodeWords_cons.mp passes with ⟨u, first, read⟩
      refine ⟨ArgKind.const.word, u, first, ?_⟩
      simp only [ArgKind.ofWord?_word, bind_eq_ok, pure_eq_ok]
      exact ⟨arg, d, ConstArg.read_eq_ok.mpr read, rfl, rfl⟩
    | result arg layout agrees =>
      rcases Cursor.passes_encodeWords_cons.mp passes with ⟨u, first, read⟩
      refine ⟨ArgKind.result.word, u, first, ?_⟩
      simp only [ArgKind.ofWord?_word, bind_eq_ok, pure_eq_ok]
      exact ⟨arg, d, ResultArg.read_eq_ok.mpr ⟨layout, agrees, read⟩, rfl, rfl⟩
    | data arg filler short fills =>
      rcases Cursor.passes_encodeWords_cons_append.mp passes with ⟨u, first, read⟩
      refine ⟨ArgKind.data.word, u, first, ?_⟩
      simp only [ArgKind.ofWord?_word, bind_eq_ok, pure_eq_ok]
      exact ⟨arg, d, DataArg.read_eq_ok.mpr ⟨filler, short, fills, read⟩, rfl, rfl⟩
    | checksum arg counted =>
      rcases Cursor.passes_encodeWords_cons_append.mp passes with ⟨u, first, read⟩
      refine ⟨ArgKind.checksum.word, u, first, ?_⟩
      simp only [ArgKind.ofWord?_word, bind_eq_ok, pure_eq_ok]
      exact ⟨arg, d, ChecksumArg.read_eq_ok.mpr ⟨counted, read⟩, rfl, rfl⟩

end SyscallStream
