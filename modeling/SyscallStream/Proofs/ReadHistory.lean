import SyscallStream.Proofs.Offsets

/-! Reads on one cursor, one after the other, failed ones among them. The cursor always stands
between two words of the buffer. A read succeeds exactly if the words that it takes are left, and
then gives the bytes at the offset; a failed read leaves the cursor as it was, so a history without
its failed reads has the same results. -/

namespace SyscallStream

inductive Read where
  | word
  | blob (size : UInt64)
  deriving DecidableEq, Repr

inductive Outcome where
  | word (value : UInt64)
  | blob (bytes : Bytes)
  | refused (error : DecodeError)
  deriving DecidableEq, Repr

namespace Outcome

def succeeded : Outcome → Bool
  | .word _ | .blob _ => true
  | .refused _ => false

def ofResult {α : Type} (value : α → Outcome) :
    EStateM.Result DecodeError Cursor α → Outcome × Cursor
  | .ok a next => (value a, next)
  | .error error next => (.refused error, next)

end Outcome

def Read.perform (read : Read) (c : Cursor) : Outcome × Cursor :=
  match read with
  | .word => Outcome.ofResult .word (readWord c)
  | .blob size => Outcome.ofResult .blob (readBlob size c)

/-- Performs reads in order, whether they fail or not: every read with its outcome, and where the
cursor ends. -/
def Cursor.run (c : Cursor) : List Read → List (Read × Outcome) × Cursor
  | [] => ([], c)
  | read :: reads =>
    let done := read.perform c
    let rest := done.2.run reads
    ((read, done.1) :: rest.1, rest.2)

def successes (log : List (Read × Outcome)) : List (Read × Outcome) :=
  log.filter fun entry => entry.2.succeeded

theorem roundUp_lt_size_iff (size : UInt64) :
    roundUp size.toNat < UInt64.size ↔ size.toNat + 7 < UInt64.size := by
  unfold roundUp UInt64.size
  omega

theorem readBlob_of_not_fits {size : UInt64} (large : ¬ size.toNat + 7 < UInt64.size) (c : Cursor) :
    readBlob size c = .error (c.overflow (UInt64.size - 1)) c := by
  have none : paddedSize? size = none := if_neg large
  simp only [readBlob, none]

def Outcome.Follows (c : Cursor) (outcome : Outcome) (d : Cursor) : Prop :=
  (outcome.succeeded = true ∧ ∃ count, wordSize ∣ count ∧ count ≤ c.remaining ∧
    d = c.advance count) ∨
  outcome.succeeded = false ∧ d = c

theorem Demands.follows {α : Type} {size : Nat} {reader : Reader α} (demands : Demands size reader)
    (whole : wordSize ∣ size) {value : α → Outcome} (good : ∀ a, (value a).succeeded = true)
    (c : Cursor) :
    (Outcome.ofResult value (reader c)).1.Follows c (Outcome.ofResult value (reader c)).2 := by
  rcases demands c with ⟨enough, a, read⟩ | ⟨_, read⟩
  · rw [read]
    exact .inl ⟨good a, size, whole, enough, rfl⟩
  · rw [read]
    exact .inr ⟨rfl, rfl⟩

theorem Read.perform_follows (read : Read) (c : Cursor) :
    (read.perform c).1.Follows c (read.perform c).2 := by
  cases read with
  | word => exact readWord_demands.follows (Nat.dvd_refl _) (fun _ => rfl) c
  | blob size =>
    by_cases fits : size.toNat + 7 < UInt64.size
    · have whole := Nat.dvd_of_mod_eq_zero (roundUp_mod size.toNat)
      exact (readBlob_demands fits).follows whole (fun _ => rfl) c
    · rw [perform, readBlob_of_not_fits fits]
      exact .inr ⟨rfl, rfl⟩

namespace Cursor

variable {bytes : Bytes} {c : Cursor}

theorem Stands.perform (stands : c.Stands bytes) (read : Read) :
    (read.perform c).2.Stands bytes := by
  rcases read.perform_follows c with ⟨_, count, whole, enough, moved⟩ | ⟨_, stayed⟩
  · rw [moved]
    exact stands.advance whole enough
  · rw [stayed]
    exact stands

theorem Stands.run (stands : c.Stands bytes) (reads : List Read) :
    (c.run reads).2.Stands bytes := by
  induction reads generalizing c with
  | nil => exact stands
  | cons read reads ih => exact ih (stands.perform read)

theorem run_append_singleton (c : Cursor) (reads : List Read) (read : Read) :
    c.run (reads ++ [read]) =
      ((c.run reads).1 ++ [(read, (read.perform (c.run reads).2).1)],
        (read.perform (c.run reads).2).2) := by
  induction reads generalizing c with
  | nil => rfl
  | cons first reads ih =>
    rw [List.cons_append, run, ih]
    rfl

/-- A failed read leaves no trace but its own outcome. -/
theorem run_successes (c : Cursor) (reads : List Read) :
    c.run ((successes (c.run reads).1).map Prod.fst) =
      (successes (c.run reads).1, (c.run reads).2) := by
  induction reads generalizing c with
  | nil => rfl
  | cons read reads ih =>
    -- The rest of the history starts at the same cursor with and without a failed read.
    rcases read.perform_follows c with ⟨good, _⟩ | ⟨bad, stayed⟩
    · have kept : successes (c.run (read :: reads)).1 =
          (read, (read.perform c).1) :: successes ((read.perform c).2.run reads).1 :=
        List.filter_cons_of_pos good
      rw [kept, List.map_cons, run, ih]
      rfl
    · have dropped : successes (c.run (read :: reads)).1 =
          successes ((read.perform c).2.run reads).1 :=
        List.filter_cons_of_neg (by simp [bad])
      rw [dropped, stayed, ih, run, stayed]

theorem Stands.readWord_of_le (stands : c.Stands bytes) (enough : wordSize ≤ c.remaining) :
    ∃ word, readWord c = .ok word (c.advance wordSize) ∧
      word.toNat = littleEndian ((bytes.drop c.offset).take wordSize) := by
  refine ⟨Word.ofBytes (c.rest.take wordSize), if_pos enough, ?_⟩
  rw [Word.toNat_ofBytes (length_take enough), stands.rest]

theorem Stands.readBlob_of_le (stands : c.Stands bytes) {size : UInt64}
    (fits : roundUp size.toNat < UInt64.size) (enough : roundUp size.toNat ≤ c.remaining) :
    readBlob size c =
        .ok ((bytes.drop c.offset).take size.toNat) (c.advance (roundUp size.toNat)) ∧
      ((bytes.drop c.offset).take size.toNat).length = size.toNat := by
  rw [← stands.rest]
  constructor
  · rw [readBlob_of_fits ((roundUp_lt_size_iff size).mp fits), if_pos enough]
  · exact length_take (Nat.le_trans (le_roundUp size.toNat) enough)

end Cursor

theorem readBlob_of_short {size : UInt64} {c : Cursor} (fits : roundUp size.toNat < UInt64.size)
    (short : c.remaining < roundUp size.toNat) :
    readBlob size c = .error (c.overflow (roundUp size.toNat)) c := by
  rw [readBlob_of_fits ((roundUp_lt_size_iff size).mp fits), if_neg (Nat.not_le.mpr short)]

/-- After any reads on a buffer the cursor stands between two of its words. The next word is read
exactly if eight bytes are left, and a blob exactly if its size, rounded up to whole words, is a
64-bit size and that many bytes are left; the bytes at the offset are given. What fails tells what
it needed and leaves the cursor alone, so the history without its failures is the same history. -/
theorem reads_exact (bytes : Bytes) (reads : List Read) (log : List (Read × Outcome)) (c : Cursor)
    (ran : (Cursor.ofBytes bytes).run reads = (log, c)) :
    c.offset + c.remaining = bytes.length ∧ c.offset % wordSize = 0 ∧
      (wordSize ≤ c.remaining → ∃ word, readWord c = .ok word (c.advance wordSize) ∧
        word.toNat = littleEndian ((bytes.drop c.offset).take wordSize)) ∧
      (c.remaining < wordSize →
        readWord c = .error (.overflow c.offset wordSize c.remaining) c) ∧
      (∀ size : UInt64, roundUp size.toNat < UInt64.size → roundUp size.toNat ≤ c.remaining →
        readBlob size c =
            .ok ((bytes.drop c.offset).take size.toNat) (c.advance (roundUp size.toNat)) ∧
          ((bytes.drop c.offset).take size.toNat).length = size.toNat) ∧
      (∀ size : UInt64, roundUp size.toNat < UInt64.size → c.remaining < roundUp size.toNat →
        readBlob size c = .error (.overflow c.offset (roundUp size.toNat) c.remaining) c) ∧
      (∀ size : UInt64, UInt64.size ≤ roundUp size.toNat →
        readBlob size c = .error (.overflow c.offset (UInt64.size - 1) c.remaining) c) ∧
      (∀ read : Read, (Cursor.ofBytes bytes).run (reads ++ [read]) =
        (log ++ [(read, (read.perform c).1)], (read.perform c).2)) ∧
      (Cursor.ofBytes bytes).run ((successes log).map Prod.fst) = (successes log, c) := by
  have stands := (Cursor.stands_ofBytes bytes).run reads
  have onward := Cursor.run_append_singleton (Cursor.ofBytes bytes) reads
  have thinned := Cursor.run_successes (Cursor.ofBytes bytes) reads
  rw [ran] at stands onward thinned
  refine ⟨stands.offset_add_remaining, Nat.mod_eq_zero_of_dvd stands.aligned,
    stands.readWord_of_le, ?_, ?_, ?_, ?_, onward, thinned⟩
  · intro short
    exact if_neg (Nat.not_le.mpr short)
  · intro size fits enough
    exact stands.readBlob_of_le fits enough
  · intro size fits short
    exact readBlob_of_short fits short
  · intro size large
    exact readBlob_of_not_fits (mt (roundUp_lt_size_iff size).mpr (Nat.not_lt.mpr large)) c

def sampleBuffer : Bytes :=
  [1, 2, 3, 0xaa, 0xbb, 0xcc, 0xdd, 0xee] ++ Word.toBytes 7 ++ [9, 9, 9, 9]

/-- A blob too large for any buffer and one that lacks its filler, between reads that succeed. -/
def sampleReads : List Read := [.blob 3, .blob 0xffffffffffffffff, .word, .blob 4]

theorem reads_exact_sampleReads :
    ∃ log c, (Cursor.ofBytes sampleBuffer).run sampleReads = (log, c) ∧
      log = [(.blob 3, .blob [1, 2, 3]),
        (.blob 0xffffffffffffffff, .refused (.overflow 8 0xffffffffffffffff 12)),
        (.word, .word 7), (.blob 4, .refused (.overflow 16 8 4))] ∧
      c.offset = 16 ∧ c.offset + c.remaining = sampleBuffer.length ∧
      readWord c = .error (.overflow c.offset wordSize c.remaining) c ∧
      (Cursor.ofBytes sampleBuffer).run [.blob 3, .word] =
        ([(.blob 3, .blob [1, 2, 3]), (.word, .word 7)], c) := by
  have reads := reads_exact sampleBuffer sampleReads
    ((Cursor.ofBytes sampleBuffer).run sampleReads).1
    ((Cursor.ofBytes sampleBuffer).run sampleReads).2 rfl
  have short : ((Cursor.ofBytes sampleBuffer).run sampleReads).2.remaining < wordSize := by
    decide +kernel
  have log : ((Cursor.ofBytes sampleBuffer).run sampleReads).1 =
      [(.blob 3, .blob [1, 2, 3]),
        (.blob 0xffffffffffffffff, .refused (.overflow 8 0xffffffffffffffff 12)),
        (.word, .word 7), (.blob 4, .refused (.overflow 16 8 4))] := by decide +kernel
  have thinned := reads.2.2.2.2.2.2.2.2
  rw [log] at thinned
  exact ⟨_, _, rfl, log, by decide +kernel, reads.1, reads.2.2.2.1 short, thinned⟩

end SyscallStream
