import LessCss.Proofs.Number.Doubles
import Mathlib.Data.List.TakeWhile

/-! The numeral that is written for a finite double: its form, and how far the
number it denotes is from the double. -/

set_option autoImplicit false

namespace LessCss.Decimal

open List Binary64

namespace Numeral

def rational (numeral : Numeral) : ℚ :=
  (if numeral.negative then -1 else 1) *
    (digitsValue (numeral.whole ++ numeral.fraction) / 10 ^ numeral.fraction.length)

def text (numeral : Numeral) : String :=
  String.ofList ((if numeral.negative then ['-'] else []) ++ numeral.whole ++
    (if numeral.fraction.isEmpty then [] else '.' :: numeral.fraction))

/-- The one form in which a number of four places is written. -/
structure IsCanonical (numeral : Numeral) : Prop where
  whole_ne_nil : numeral.whole ≠ []
  whole_digits : ∀ c ∈ numeral.whole, c.isDigit = true
  fraction_digits : ∀ c ∈ numeral.fraction, c.isDigit = true
  fraction_length : numeral.fraction.length ≤ 4
  no_final_zero : numeral.fraction.getLast? ≠ some '0'
  no_minus_zero : numeral.negative = true → numeral.rational ≠ 0

theorem IsCanonical.read?_text {numeral : Numeral} (canonical : numeral.IsCanonical) :
    read? numeral.text.toList = some (numeral, []) := by
  obtain ⟨negative, whole, fraction⟩ := numeral
  obtain ⟨digit, digits, rfl⟩ := exists_cons_of_ne_nil canonical.whole_ne_nil
  have no_minus : digit ≠ '-' := by
    rintro rfl
    exact absurd (canonical.whole_digits _ mem_cons_self) (by decide)
  -- Behind the sign the same characters stand in both cases.
  have sign (rest : List Char) :
      (((if negative then ['-'] else []) ++ digit :: digits ++ rest).head? == some '-') = negative := by
    cases negative <;> simp [no_minus]
  have unsigned (rest : List Char) : (if negative
      then ((if negative then ['-'] else []) ++ digit :: digits ++ rest).tail
      else (if negative then ['-'] else []) ++ digit :: digits ++ rest) = digit :: digits ++ rest := by
    cases negative <;> rfl
  rw [text, String.toList_ofList, read?]
  dsimp only
  rw [sign, unsigned, takeWhile_append_of_pos canonical.whole_digits,
    dropWhile_append_of_pos canonical.whole_digits]
  cases fraction with
  | nil => simp
  | cons first rest =>
    have taken : (first :: rest).takeWhile Char.isDigit = first :: rest :=
      takeWhile_eq_self_iff.mpr canonical.fraction_digits
    have dropped : (first :: rest).dropWhile Char.isDigit = [] :=
      dropWhile_eq_nil_iff.mpr canonical.fraction_digits
    simp [taken, dropped]

end Numeral

def numeralOf (negative : Bool) (units : Nat) : Numeral where
  negative := negative && units != 0
  whole := Nat.toDigits 10 (units / tenTo places)
  fraction := dropZeros (padded places (units % tenTo places))

theorem digitsValue_append (front back : List Char) :
    digitsValue (front ++ back) = digitsValue front * tenTo back.length + digitsValue back := by
  change Nat.ofDigitChars 10 _ _ = Nat.ofDigitChars 10 _ _ * _ + Nat.ofDigitChars 10 _ _
  rw [Nat.ofDigitChars_append, Nat.ofDigitChars_eq_ofDigitChars_zero, Nat.mul_comm]
  rfl

theorem digitsValue_zeros (n : Nat) : digitsValue (List.replicate n '0') = 0 := by
  change Nat.ofDigitChars 10 _ _ = 0
  rw [Nat.ofDigitChars_replicate_zero, Nat.mul_zero]

theorem digitsValue_toDigits (n : Nat) : digitsValue (Nat.toDigits 10 n) = n :=
  Nat.ofDigitChars_ten_toDigits

theorem digitsValue_padded (width n : Nat) : digitsValue (padded width n) = n := by
  rw [padded, digitsValue_append, digitsValue_zeros, digitsValue_toDigits, Nat.zero_mul, Nat.zero_add]

theorem length_padded {width n : Nat} (positive : 0 < width) (fits : n < tenTo width) :
    (padded width n).length = width := by
  have short := (Nat.length_toDigits_le_iff (by decide : 1 < 10) positive).mpr fits
  rw [padded, length_append, length_replicate]
  omega

theorem isDigit_of_mem_padded {width n : Nat} {c : Char} (member : c ∈ padded width n) : c.isDigit = true := by
  rcases mem_append.mp member with zero | digit
  · rw [eq_of_mem_replicate zero]
    rfl
  · exact Nat.isDigit_of_mem_toDigits (by decide) (by decide) digit

theorem exists_dropZeros_append (digits : List Char) :
    ∃ n, digits = dropZeros digits ++ List.replicate n '0' := by
  have zeros : digits.reverse.takeWhile (· == '0') =
      List.replicate (digits.reverse.takeWhile (· == '0')).length '0' := by
    apply eq_replicate_iff.mpr
    exact ⟨rfl, fun c member => beq_iff_eq.mp (all_eq_true.mp all_takeWhile c member)⟩
  refine ⟨(digits.reverse.takeWhile (· == '0')).length, ?_⟩
  rw [dropZeros, ← reverse_inj, reverse_append, reverse_reverse, reverse_replicate,
    ← zeros, takeWhile_append_dropWhile]

theorem getLast?_dropZeros (digits : List Char) : (dropZeros digits).getLast? ≠ some '0' := by
  rw [dropZeros, List.getLast?_reverse]
  intro zero
  have head := List.head?_dropWhile_not (· == '0') digits.reverse
  rw [zero] at head
  cases head

/-- The digits of a numeral, with the dropped zeros behind them, are those of its units. -/
theorem digitsValue_numeralOf (negative : Bool) (units : Nat) :
    ∃ n, (numeralOf negative units).fraction.length + n = places ∧
      digitsValue ((numeralOf negative units).whole ++ (numeralOf negative units).fraction) * tenTo n = units := by
  obtain ⟨n, cut⟩ := exists_dropZeros_append (padded places (units % tenTo places))
  have width : (padded places (units % tenTo places)).length = places :=
    length_padded (by decide) (Nat.mod_lt units (by decide))
  refine ⟨n, ?_, ?_⟩
  · rw [cut, length_append, length_replicate] at width
    exact width
  · calc
      _ = digitsValue ((numeralOf negative units).whole ++
          ((numeralOf negative units).fraction ++ List.replicate n '0')) := by
        rw [← List.append_assoc, digitsValue_append _ (List.replicate n '0'), digitsValue_zeros,
          length_replicate, Nat.add_zero]
      _ = digitsValue (Nat.toDigits 10 (units / tenTo places) ++ padded places (units % tenTo places)) := by
        rw [cut]
        rfl
      _ = units / tenTo places * tenTo places + units % tenTo places := by
        rw [digitsValue_append, digitsValue_toDigits, digitsValue_padded, width]
      _ = units := Nat.div_add_mod' units (tenTo places)

theorem rational_numeralOf (negative : Bool) (units : Nat) :
    (numeralOf negative units).rational = (if negative then -1 else 1) * (units / 10000) := by
  obtain ⟨n, length, value⟩ := digitsValue_numeralOf negative units
  have quotient : (digitsValue ((numeralOf negative units).whole ++ (numeralOf negative units).fraction) : ℚ) /
      10 ^ (numeralOf negative units).fraction.length = units / 10000 := by
    have whole : (10 : ℚ) ^ n * 10 ^ (numeralOf negative units).fraction.length = 10000 := by
      rw [← pow_add, Nat.add_comm, length]
      norm_num [places]
    have scaled : (units : ℚ) = digitsValue ((numeralOf negative units).whole ++
        (numeralOf negative units).fraction) * 10 ^ n := by exact_mod_cast value.symm
    rw [div_eq_div_iff (pow_ne_zero _ (by norm_num)) (by norm_num), ← whole, scaled, mul_assoc]
  rw [Numeral.rational, quotient]
  cases negative with
  | false => rfl
  | true =>
    by_cases zero : units = 0
    · simp [zero]
    · simp [numeralOf, zero]

theorem isCanonical_numeralOf (negative : Bool) (units : Nat) : (numeralOf negative units).IsCanonical where
  whole_ne_nil := Nat.toDigits_ne_nil
  whole_digits _ digit := Nat.isDigit_of_mem_toDigits (by decide) (by decide) digit
  fraction_digits c digit := by
    obtain ⟨n, cut⟩ := exists_dropZeros_append (padded places (units % tenTo places))
    apply isDigit_of_mem_padded
    rw [cut]
    exact mem_append_left _ digit
  fraction_length := by
    obtain ⟨n, length, _⟩ := digitsValue_numeralOf negative units
    exact Nat.le.intro length
  no_final_zero := getLast?_dropZeros _
  no_minus_zero minus := by
    obtain ⟨rfl, positive⟩ : negative = true ∧ units ≠ 0 := by simpa [numeralOf] using minus
    rw [rational_numeralOf]
    simpa using positive

theorem abs_unitsOf_sub (mantissa : Nat) (exponent : Int) :
    |(unitsOf mantissa exponent : ℚ) - mantissa * 2 ^ exponent * 10000| ≤ 1 / 2 := by
  obtain ⟨positive, ratio⟩ := scaleDown_ratio (mantissa * tenTo places) (-exponent) Nat.one_pos
  have near := abs_roundDiv_sub (scaleDown (mantissa * tenTo places) 1 (-exponent)).1 positive
  have same : ((mantissa * tenTo places : Nat) : ℚ) / (1 : Nat) / 2 ^ (-exponent) =
      mantissa * 2 ^ exponent * 10000 := by
    rw [zpow_neg, div_inv_eq_mul, Nat.cast_one, div_one, Nat.cast_mul, mul_right_comm]
    norm_num [tenTo, places]
  rwa [ratio, same] at near

/-- What is negligible is written as no units at all. -/
theorem exists_write_eq {x : Float} {negative : Bool} {mantissa : Nat} {exponent : Int}
    (finite : ofUnpacked x.toModel.unpack = .finite negative mantissa exponent) :
    ∃ units, write x = writeUnits negative units ∧ |(units : ℚ) - mantissa * 2 ^ exponent * 10000| ≤ 1 / 2 := by
  unfold write
  split
  next less =>
    have small := lt_of_negligible finite less
    have nonneg : (0 : ℚ) ≤ mantissa * 2 ^ exponent :=
      mul_nonneg (Nat.cast_nonneg _) (zpow_nonneg (by norm_num) _)
    refine ⟨0, by cases negative <;> rfl, ?_⟩
    rw [abs_le]
    constructor <;> push_cast <;> linarith
  next =>
    rw [ofFloat_eq_ofUnpacked, finite]
    exact ⟨unitsOf mantissa exponent, rfl, abs_unitsOf_sub mantissa exponent⟩

theorem abs_signed (negative : Bool) (q : ℚ) : |(if negative then -1 else 1) * q| = |q| := by
  cases negative <;> simp

/-- Every finite double is written in the canonical form, half a unit of the last
place off at most, and the form is read back whole. -/
theorem written_canonical_and_near {x : Float} (finite : x.isFinite = true) :
    ∃ v numeral, denoted? x = some v ∧ write x = Numeral.text numeral ∧ numeral.IsCanonical ∧
      Numeral.read? (write x).toList = some (numeral, []) ∧ (|v| < 1 / 10 ^ 9 → numeral.rational = 0) ∧
      (∃ units : Int, numeral.rational = units / 10000) ∧ |numeral.rational - v| ≤ 1 / 20000 := by
  obtain ⟨negative, mantissa, exponent, parts⟩ := exists_finite finite
  obtain ⟨units, written, near⟩ := exists_write_eq parts
  have canonical := isCanonical_numeralOf negative units
  have distance := abs_le.mp near
  refine ⟨(if negative then -1 else 1) * (mantissa * 2 ^ exponent), numeralOf negative units, ?_, written,
    canonical, ?_, ?_, ?_, ?_⟩
  · rw [denoted?, parts]
    rfl
  · rw [written]
    exact canonical.read?_text
  · -- A value this small is less than half a unit, whichever way it was written.
    intro tiny
    rw [abs_signed] at tiny
    have less : (units : ℚ) < 1 := by
      have := (abs_lt.mp tiny).2
      linarith
    have zero : units = 0 := Nat.lt_one_iff.mp (by exact_mod_cast less)
    rw [rational_numeralOf, zero, Nat.cast_zero, zero_div, mul_zero]
  · refine ⟨(if negative then -1 else 1) * units, ?_⟩
    rw [rational_numeralOf]
    cases negative <;> push_cast <;> simp [neg_div]
  · rw [rational_numeralOf, ← mul_sub, abs_signed, abs_le]
    constructor <;> linarith

def nearlyTwenty : Float := -19.99996

theorem nearlyTwenty_written : nearlyTwenty.isFinite = true ∧ write nearlyTwenty = "-20" ∧
    ∃ v numeral, denoted? nearlyTwenty = some v ∧ write nearlyTwenty = Numeral.text numeral ∧
      numeral.IsCanonical ∧ Numeral.read? (write nearlyTwenty).toList = some (numeral, []) ∧
      (|v| < 1 / 10 ^ 9 → numeral.rational = 0) ∧ (∃ units : Int, numeral.rational = units / 10000) ∧
      |numeral.rational - v| ≤ 1 / 20000 :=
  have finite : nearlyTwenty.isFinite = true := by decide +kernel
  ⟨finite, by decide +kernel, written_canonical_and_near finite⟩

end LessCss.Decimal
