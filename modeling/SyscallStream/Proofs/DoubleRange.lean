import SyscallStream.Json.DoubleRange

/-! Which number literals are read. What is compared with the range of a double is a product of rounded
factors, so a literal is refused only if it comes close to the end of the range or is beyond it. -/

namespace SyscallStream.Json

def maxDouble : Nat := (1 <<< 1024) - (1 <<< 971)

def safeDouble : Nat := (1 <<< 1024) - (1 <<< 973)

/-- The power of ten that the digits of a literal, taken as a whole number, are scaled by. -/
def Number.power (number : Number) : Int :=
  (match number.exponent? with
    | none => 0
    | some exponent =>
      if exponent.negative then -digitsValue exponent.digits else digitsValue exponent.digits) -
    number.fraction.length

/-- The magnitude of a literal is no more than a bound. A negative power scales the bound instead. -/
def Number.AtMost (number : Number) (bound : Nat) : Prop :=
  digitsValue (number.whole ++ number.fraction) * Nat.pow 10 number.power.toNat ≤
    bound * Nat.pow 10 (-number.power).toNat

instance (number : Number) (bound : Nat) : Decidable (number.AtMost bound) :=
  inferInstanceAs (Decidable (_ ≤ _))

section Powers

theorem pow_ten_succ (n : Nat) : Nat.pow 10 (n + 1) = 10 * Nat.pow 10 n := Nat.pow_succ'

theorem pow_ten_add (m n : Nat) : Nat.pow 10 (m + n) = Nat.pow 10 m * Nat.pow 10 n :=
  Nat.pow_add 10 m n

theorem pow_ten_pos (n : Nat) : 0 < Nat.pow 10 n := Nat.pow_pos (by decide)

theorem pow_ten_le {m n : Nat} (le : m ≤ n) : Nat.pow 10 m ≤ Nat.pow 10 n :=
  Nat.pow_le_pow_right (by decide) le

end Powers

section Digits

def appendValue (value : Nat) (digits : List Char) : Nat :=
  digits.foldl (fun value digit => 10 * value + (digit.toNat - '0'.toNat)) value

theorem appendValue_append (value : Nat) (front back : List Char) :
    appendValue value (front ++ back) = appendValue (appendValue value front) back :=
  List.foldl_append

theorem mul_pow_le_appendValue (value : Nat) (digits : List Char) :
    value * Nat.pow 10 digits.length ≤ appendValue value digits := by
  induction digits generalizing value with
  | nil => exact Nat.le_of_eq (Nat.mul_one value)
  | cons digit digits ih =>
    have later := ih (10 * value + (digit.toNat - '0'.toNat))
    calc value * Nat.pow 10 (digits.length + 1)
        = 10 * value * Nat.pow 10 digits.length := by
          rw [pow_ten_succ, ← Nat.mul_assoc, Nat.mul_comm value]
      _ ≤ (10 * value + (digit.toNat - '0'.toNat)) * Nat.pow 10 digits.length :=
          Nat.mul_le_mul_right _ (Nat.le_add_right _ _)
      _ ≤ appendValue value (digit :: digits) := later

theorem appendDigits_split (value : Nat) (digits : List Char) :
    ∃ taken left, digits = taken ++ left ∧
      appendDigits value digits = (appendValue value taken, left.length) ∧
      (taken = [] ∨ appendValue value taken < UInt64.size) ∧
      (left = [] ∨ ∃ digit rest, left = digit :: rest ∧
        UInt64.size ≤ appendValue value (taken ++ [digit])) := by
  induction digits generalizing value with
  | nil => exact ⟨[], [], rfl, rfl, .inl rfl, .inl rfl⟩
  | cons digit digits ih =>
    by_cases fits : 10 * value + (digit.toNat - '0'.toNat) < UInt64.size
    · rcases ih (10 * value + (digit.toNat - '0'.toNat)) with
        ⟨taken, left, rfl, split, small, full⟩
      refine ⟨digit :: taken, left, rfl, ?_, .inr ?_, full⟩
      · rw [appendDigits, if_pos fits]
        exact split
      · rcases small with rfl | small
        · exact fits
        · exact small
    · refine ⟨[], digit :: digits, rfl, ?_, .inl rfl, .inr ⟨digit, digits, rfl, ?_⟩⟩
      · rw [appendDigits, if_neg fits]
        rfl
      · exact Nat.not_lt.mp fits

/-- Digits that were left over are no less than the noughts that stand for them. -/
theorem mul_pow_le_of_split {front dropped taken ignored : List Char}
    (small : taken = [] ∨ appendValue (appendValue 0 front) taken < UInt64.size)
    (full : dropped = [] ∨ ∃ digit rest, dropped = digit :: rest ∧
      UInt64.size ≤ appendValue 0 (front ++ [digit])) :
    appendValue (appendValue 0 front) taken * Nat.pow 10 (dropped.length + ignored.length) ≤
      appendValue (appendValue 0 (front ++ dropped)) (taken ++ ignored) := by
  rcases full with rfl | ⟨digit, rest, rfl, full⟩
  · rw [List.append_nil, List.length_nil, Nat.zero_add, appendValue_append]
    exact mul_pow_le_appendValue _ _
  · have whole : appendValue 0 (front ++ digit :: rest) =
        appendValue (appendValue 0 (front ++ [digit])) rest := by
      rw [← appendValue_append, List.append_assoc, List.singleton_append]
    have behind := mul_pow_le_appendValue (appendValue 0 (front ++ digit :: rest)) (taken ++ ignored)
    refine Nat.le_trans ?_ behind
    rw [List.length_append]
    by_cases none : taken = []
    · have kept := mul_pow_le_appendValue (appendValue 0 front) (digit :: rest)
      rw [← appendValue_append] at kept
      rw [none, List.length_nil, Nat.zero_add, pow_ten_add, ← Nat.mul_assoc]
      exact Nat.mul_le_mul_right _ kept
    · -- The fraction has a digit that still fits, where the whole part had one that does not.
      have fits := small.resolve_left none
      have longer : 1 + ignored.length ≤ taken.length + ignored.length :=
        Nat.add_le_add_right (List.length_pos_iff.mpr none) _
      calc appendValue (appendValue 0 front) taken *
            Nat.pow 10 ((digit :: rest).length + ignored.length)
          ≤ appendValue 0 (front ++ [digit]) *
              Nat.pow 10 ((digit :: rest).length + ignored.length) :=
            Nat.mul_le_mul_right _ (by omega)
        _ = appendValue 0 (front ++ [digit]) * Nat.pow 10 rest.length *
              Nat.pow 10 (1 + ignored.length) := by
            rw [List.length_cons, Nat.add_assoc, pow_ten_add, Nat.mul_assoc]
        _ ≤ appendValue 0 (front ++ digit :: rest) * Nat.pow 10 (1 + ignored.length) := by
            rw [whole]
            exact Nat.mul_le_mul_right _ (mul_pow_le_appendValue _ _)
        _ ≤ appendValue 0 (front ++ digit :: rest) *
              Nat.pow 10 (taken.length + ignored.length) :=
            Nat.mul_le_mul_left _ (pow_ten_le longer)

theorem Number.scale_le (number : Number) :
    ∃ left : Nat, number.scale.2 = left + number.power ∧
      number.scale.1 * Nat.pow 10 left ≤ digitsValue (number.whole ++ number.fraction) := by
  rcases appendDigits_split 0 number.whole with ⟨front, dropped, whole, first, _, full⟩
  rcases appendDigits_split (appendValue 0 front) number.fraction with
    ⟨taken, ignored, fraction, second, small, _⟩
  have scale : number.scale =
      (appendValue (appendValue 0 front) taken, dropped.length + ignored.length + number.power) := by
    unfold Number.scale Number.power
    cases number.exponent? <;> simp only [first, second] <;> congr 1 <;> omega
  have value : digitsValue (number.whole ++ number.fraction) =
      appendValue (appendValue 0 (front ++ dropped)) (taken ++ ignored) := by
    rw [← whole, ← fraction, ← appendValue_append]
    rfl
  refine ⟨dropped.length + ignored.length, ?_, ?_⟩
  · rw [scale]
    rfl
  · rw [scale, value]
    exact mul_pow_le_of_split small full

end Digits

section Rounding

theorem unit_le {n : Nat} (large : 1 <<< 53 ≤ n) : (1 <<< (n.log2 - 52)) * (1 <<< 52) ≤ n := by
  have positive : n ≠ 0 := by
    rintro rfl
    exact absurd large (by decide)
  have deep : 52 ≤ n.log2 := by
    rw [Nat.le_log2 positive]
    exact Nat.le_trans (by decide) large
  calc (1 <<< (n.log2 - 52)) * (1 <<< 52)
      = 2 ^ n.log2 := by
        rw [Nat.shiftLeft_eq, Nat.shiftLeft_eq, Nat.one_mul, Nat.one_mul, ← Nat.pow_add,
          Nat.sub_add_cancel deep]
    _ ≤ n := Nat.log2_self_le positive

theorem round_up_le {n unit product remainder scale : Nat} (parts : product + remainder = n)
    (middle : unit ≤ 2 * remainder) (below : unit * scale ≤ n) :
    (product + unit) * (2 * scale) ≤ n * (2 * scale + 1) := by
  have growth : unit * (2 * scale) ≤ remainder * (2 * scale) + n := by
    have twice : unit * scale ≤ 2 * remainder * scale := Nat.mul_le_mul_right _ middle
    calc unit * (2 * scale) = unit * scale + unit * scale := by
          rw [Nat.mul_left_comm, Nat.two_mul]
      _ ≤ 2 * remainder * scale + n := Nat.add_le_add twice below
      _ = remainder * (2 * scale) + n := by rw [Nat.mul_comm 2, Nat.mul_assoc]
  calc (product + unit) * (2 * scale)
      = product * (2 * scale) + unit * (2 * scale) := Nat.add_mul _ _ _
    _ ≤ product * (2 * scale) + (remainder * (2 * scale) + n) := Nat.add_le_add_left growth _
    _ = n * (2 * scale + 1) := by
        rw [← Nat.add_assoc, ← Nat.add_mul, parts, Nat.mul_add, Nat.mul_one]

theorem roundToDouble_le (n : Nat) : roundToDouble n * (1 <<< 53) ≤ n * ((1 <<< 53) + 1) := by
  unfold roundToDouble
  by_cases small : n < 1 <<< 53
  · rw [if_pos small]
    exact Nat.mul_le_mul_left _ (Nat.le_succ _)
  · rw [if_neg small]
    have below := unit_le (Nat.not_lt.mp small)
    simp only
    generalize 1 <<< (n.log2 - 52) = unit at below
    have parts := Nat.div_add_mod n unit
    split
    · rename_i up
      have middle : unit ≤ 2 * (n % unit) := by
        simp only [Bool.or_eq_true, decide_eq_true_eq, Bool.and_eq_true, beq_iff_eq] at up
        rcases up with more | ⟨tie, _⟩
        · exact Nat.le_of_lt more
        · exact Nat.le_of_eq tie.symm
      have grown := round_up_le parts middle below
      rw [Nat.add_mul, Nat.one_mul, Nat.mul_comm (n / unit)]
      exact grown
    · have cut : n / unit * unit ≤ n := Nat.div_mul_le_self n unit
      exact Nat.mul_le_mul cut (Nat.le_succ _)

/-- Each of two factors is rounded, and their product stays in range. -/
theorem rounded_product_lt {m n : Nat} (inside : m * n ≤ safeDouble) :
    roundToDouble m * roundToDouble n < doubleOverflow := by
  have first := roundToDouble_le m
  have second := roundToDouble_le n
  have room : safeDouble * (((1 <<< 53) + 1) * ((1 <<< 53) + 1)) <
      doubleOverflow * ((1 <<< 53) * (1 <<< 53)) := by
    decide +kernel
  apply Nat.lt_of_mul_lt_mul_right (a := (1 <<< 53) * (1 <<< 53))
  calc roundToDouble m * roundToDouble n * ((1 <<< 53) * (1 <<< 53))
      = roundToDouble m * (1 <<< 53) * (roundToDouble n * (1 <<< 53)) := Nat.mul_mul_mul_comm ..
    _ ≤ m * ((1 <<< 53) + 1) * (n * ((1 <<< 53) + 1)) := Nat.mul_le_mul first second
    _ = m * n * (((1 <<< 53) + 1) * ((1 <<< 53) + 1)) := Nat.mul_mul_mul_comm ..
    _ ≤ safeDouble * (((1 <<< 53) + 1) * ((1 <<< 53) + 1)) := Nat.mul_le_mul_right _ inside
    _ < doubleOverflow * ((1 <<< 53) * (1 <<< 53)) := room

end Rounding

section Range

theorem Number.scaled_le {number : Number} {significand exponent bound : Nat}
    (scale : number.scale = (significand, .ofNat exponent)) (inside : number.AtMost bound) :
    significand * Nat.pow 10 exponent ≤ bound := by
  rcases number.scale_le with ⟨left, power, digits⟩
  rw [scale] at power digits
  -- The power of the digits is split into its positive and its negative part.
  have powers : exponent + (-number.power).toNat = left + number.power.toNat := by
    change (exponent : Int) = left + number.power at power
    omega
  apply Nat.le_of_mul_le_mul_right _ (pow_ten_pos (-number.power).toNat)
  calc significand * Nat.pow 10 exponent * Nat.pow 10 (-number.power).toNat
      = significand * Nat.pow 10 left * Nat.pow 10 number.power.toNat := by
        rw [Nat.mul_assoc, ← pow_ten_add, powers, pow_ten_add, Nat.mul_assoc]
    _ ≤ digitsValue (number.whole ++ number.fraction) * Nat.pow 10 number.power.toNat :=
        Nat.mul_le_mul_right _ digits
    _ ≤ bound * Nat.pow 10 (-number.power).toNat := inside

theorem le_maxDecimalExponent {exponent : Nat} (inside : Nat.pow 10 exponent ≤ safeDouble) :
    exponent ≤ maxDecimalExponent := by
  have beyond : safeDouble < Nat.pow 10 (maxDecimalExponent + 1) := by decide +kernel
  have short (least : Nat) (beyond : safeDouble < Nat.pow 10 least) : exponent < least := by
    apply Nat.lt_of_not_le
    intro large
    exact absurd (Nat.le_trans (pow_ten_le large) inside) (Nat.not_le.mpr beyond)
  exact Nat.le_of_lt_succ (short (maxDecimalExponent + 1) beyond)

theorem Number.inRange_of_atMost {number : Number} (inside : number.AtMost safeDouble) :
    number.inRange = true := by
  unfold Number.inRange
  split
  · rfl
  · rename_i significand exponent scale
    have scaled := Number.scaled_le scale inside
    by_cases nothing : significand = 0
    · rw [nothing]
      rfl
    · have least : Nat.pow 10 exponent ≤ significand * Nat.pow 10 exponent :=
        Nat.le_mul_of_pos_left _ (Nat.pos_of_ne_zero nothing)
      have small := le_maxDecimalExponent (Nat.le_trans least scaled)
      rw [decide_eq_true small, decide_eq_true (rounded_product_lt scaled), Bool.and_self,
        Bool.or_true]

end Range

end SyscallStream.Json
