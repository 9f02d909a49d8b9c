import LessCss.Number.Decimal
import Mathlib.Algebra.Order.Field.Rat
import Mathlib.Tactic.Linarith
import Mathlib.Tactic.NormNum

/-! The rational that a double denotes, the fields of its bits, what the
comparison of an absolute value says about them, and the error of a rounded ratio. -/

set_option autoImplicit false

namespace LessCss.Binary64

open Float.Model (Format UnpackedFloat)
open Float.Model.UnpackedFloat

def isMinus : Sign → Bool
  | .negative => true
  | .positive => false

def ofUnpacked : UnpackedFloat → Binary64
  | .infinity sign => .infinite (isMinus sign)
  | .notANumber => .nan
  | .zero sign => .finite (isMinus sign) 0 (-1074)
  | .finite sign mantissa exponent _ => .finite (isMinus sign) mantissa exponent

def rational? : Binary64 → Option ℚ
  | .finite negative mantissa exponent => some ((if negative then -1 else 1) * (mantissa * 2 ^ exponent))
  | .infinite _ => none
  | .nan => none

/-- The rational that a double denotes, taken from the double and not from its bits. -/
def denoted? (x : Float) : Option ℚ :=
  (ofUnpacked x.toModel.unpack).rational?

theorem exists_finite {x : Float} (finite : x.isFinite = true) :
    ∃ negative mantissa exponent, ofUnpacked x.toModel.unpack = .finite negative mantissa exponent := by
  change x.toModel.unpack.isFinite = true at finite
  cases eq : x.toModel.unpack with
  | infinity sign => rw [eq] at finite; cases finite
  | notANumber => rw [eq] at finite; cases finite
  | zero sign => exact ⟨_, _, _, rfl⟩
  | finite sign mantissa exponent positive => exact ⟨_, _, _, rfl⟩

section Fields

variable (sign : Sign) (exponent : BitVec 11) (mantissa : BitVec 52) (bits : BitVec 64)

theorem toNat_implicit : (1#1 ++ mantissa).toNat = twoTo 52 + mantissa.toNat := by
  rw [BitVec.toNat_append, ← Nat.shiftLeft_add_eq_or_of_lt mantissa.isLt]
  rfl

def assemble : UnpackedFloat :=
  if exponent = -1#11 then if mantissa = 0#52 then .infinity sign else .notANumber
  else if exponent = 0#11 then
    if zero : mantissa = 0#52 then .zero sign
    else .finite sign mantissa.toNat (-1074) (by simpa [BitVec.toNat_pos, BitVec.pos_iff_ne_zero])
  else .finite sign (1#1 ++ mantissa).toNat ((exponent.toNat : Int) - 1075)
    (by rw [toNat_implicit]; exact Nat.add_pos_left (by decide) _)

theorem unpack_eq_assemble : unpack .binary64 bits =
    assemble (Sign.ofBitVec (@unpackSign .binary64 bits)) (@unpackExponent .binary64 bits)
      (@unpackMantissa .binary64 bits) := by
  unfold unpack assemble
  dsimp only
  by_cases infinite : @unpackExponent .binary64 bits = -1#11
  · rw [if_pos infinite, if_pos infinite]
  rw [if_neg infinite, if_neg infinite]
  by_cases least : @unpackExponent .binary64 bits = 0#11
  · rw [if_pos least, if_pos least, least]
    rfl
  · rw [if_neg least, if_neg least]
    rfl

theorem unpackSign_packComponents {spec : Format} {exponent : BitVec spec.exponentBits}
    {mantissa : BitVec spec.mantissaBitsWithoutImplicit} :
    unpackSign (packComponents spec sign exponent mantissa) = sign.toBitVec := by
  apply BitVec.eq_of_getLsbD_eq
  intro i bound
  obtain rfl : i = 0 := by omega
  unfold unpackSign packComponents
  simp [BitVec.getLsbD_append, BitVec.getElem_append]

theorem unpack_packComponents : unpack .binary64 (packComponents .binary64 sign exponent mantissa) =
    assemble sign exponent mantissa := by
  have front : Sign.ofBitVec sign.toBitVec = sign := by cases sign <;> rfl
  rw [unpack_eq_assemble, unpackExponent_packComponents, unpackMantissa_packComponents,
    unpackSign_packComponents, front]

def ofFields (negative : Bool) (field fraction : Nat) : Binary64 :=
  if field = 2047 then if fraction = 0 then .infinite negative else .nan
  else if field = 0 then .finite negative fraction (-1074)
  else .finite negative (twoTo 52 + fraction) ((field : Int) - 1075)

theorem ofUnpacked_assemble : ofUnpacked (assemble sign exponent mantissa) =
    ofFields (isMinus sign) exponent.toNat mantissa.toNat := by
  have top : exponent = -1#11 ↔ exponent.toNat = 2047 := BitVec.toNat_inj.symm
  have bottom : exponent = 0#11 ↔ exponent.toNat = 0 := BitVec.toNat_inj.symm
  have empty : mantissa = 0#52 ↔ mantissa.toNat = 0 := BitVec.toNat_inj.symm
  unfold assemble ofFields
  by_cases infinite : exponent = -1#11
  · rw [if_pos infinite, if_pos (top.mp infinite)]
    by_cases zero : mantissa = 0#52
    · rw [if_pos zero, if_pos (empty.mp zero)]
      rfl
    · rw [if_neg zero, if_neg (mt empty.mpr zero)]
      rfl
  rw [if_neg infinite, if_neg (mt top.mpr infinite)]
  by_cases least : exponent = 0#11
  · rw [if_pos least, if_pos (bottom.mp least)]
    by_cases zero : mantissa = 0#52
    · rw [dif_pos zero, empty.mp zero]
      rfl
    · rw [dif_neg zero]
      rfl
  · rw [if_neg least, if_neg (mt bottom.mpr least), ← toNat_implicit]
    rfl

theorem toNat_unpackMantissa : (@unpackMantissa .binary64 bits).toNat = bits.toNat % twoTo 52 := by
  simp [unpackMantissa, twoTo]

theorem toNat_unpackExponent : (@unpackExponent .binary64 bits).toNat = bits.toNat / twoTo 52 % twoTo 11 := by
  simp [unpackExponent, twoTo, Nat.shiftRight_eq_div_pow]

theorem isMinus_unpackSign : isMinus (Sign.ofBitVec (@unpackSign .binary64 bits)) =
    (bits.toNat / twoTo 63 % 2 == 1) := by
  have sign : (@unpackSign .binary64 bits).toNat = bits.toNat / twoTo 63 % 2 := by
    unfold unpackSign
    simp [twoTo, Nat.shiftRight_eq_div_pow]
  rw [Sign.ofBitVec, ← sign]
  split
  next zero => rw [zero]; rfl
  next other =>
    have positive : (@unpackSign .binary64 bits).toNat ≠ 0 := fun zero => other (BitVec.eq_of_toNat_eq zero)
    have one : (@unpackSign .binary64 bits).toNat = 1 := by
      have bound := (@unpackSign .binary64 bits).isLt
      omega
    rw [one]
    rfl

theorem ofFloat_eq_ofUnpacked (x : Float) : ofFloat x = ofUnpacked x.toModel.unpack := by
  rw [Float.Model.unpack, unpack_eq_assemble, ofUnpacked_assemble, isMinus_unpackSign,
    toNat_unpackExponent, toNat_unpackMantissa]
  rfl

-- A mantissa of 53 bits has its first bit cleared when it is packed; a shorter
-- one belongs to the least exponent, whose field is zero.
theorem pack_abs_assemble (number : exponent ≠ -1#11) : pack .binary64 (assemble sign exponent mantissa).abs =
    packComponents .binary64 .positive exponent mantissa := by
  have field : exponent.toNat ≠ 2047 := fun top => number (BitVec.eq_of_toNat_eq top)
  have fraction : mantissa.toNat < 2 ^ 52 := mantissa.isLt
  unfold assemble
  rw [if_neg number]
  by_cases bottom : exponent = 0#11
  · rw [if_pos bottom]
    by_cases zero : mantissa = 0#52
    · rw [dif_pos zero, zero, bottom]
      rfl
    · rw [dif_neg zero]
      have short : mantissa.toNat.log2 < 52 :=
        (Nat.log2_lt fun none => zero (BitVec.eq_of_toNat_eq none)).mpr fraction
      have subnormal : mantissa.toNat.log2 + 1 ≠ Format.binary64.mantissaBits := by
        change _ ≠ 53
        omega
      unfold pack UnpackedFloat.abs
      dsimp only
      rw [if_neg (by decide), if_neg subnormal, BitVec.ofNat_toNat, BitVec.setWidth_eq, bottom]
  · rw [if_neg bottom]
    -- With the implicit bit the mantissa has full length, and packing takes that bit off again.
    have full : (twoTo 52 + mantissa.toNat).log2 = 52 := by
      apply (Nat.log2_eq_iff (Nat.add_pos_left (by decide) _).ne').mpr
      change 2 ^ 52 ≤ 2 ^ 52 + _ ∧ 2 ^ 52 + _ < 2 ^ 53
      omega
    have biased : ((exponent.toNat : Int) - 1075 + Format.binary64.exponentBias + (52 : Nat)).toNat =
        exponent.toNat := by
      change ((exponent.toNat : Int) - 1075 + 1023 + 52).toNat = exponent.toNat
      omega
    have cleared : BitVec.ofNat 52 (twoTo 52 + mantissa.toNat) = mantissa := by
      apply BitVec.eq_of_toNat_eq
      rw [BitVec.toNat_ofNat]
      change (2 ^ 52 + mantissa.toNat) % 2 ^ 52 = _
      omega
    have below : ¬2 ^ 11 ≤ exponent.toNat + 1 := by
      have bound : exponent.toNat < 2048 := exponent.isLt
      omega
    unfold pack UnpackedFloat.abs
    dsimp only
    rw [toNat_implicit, full, cleared, biased, if_neg below, if_pos (by decide), BitVec.ofNat_toNat,
      BitVec.setWidth_eq]

end Fields

theorem ofFields_finite {sign negative : Bool} {field fraction mantissa : Nat} {exponent : Int}
    (small : fraction < twoTo 52) (finite : ofFields sign field fraction = .finite negative mantissa exponent) :
    field ≠ 2047 ∧ mantissa < twoTo 53 ∧ ofFields false field fraction = .finite false mantissa exponent := by
  have double : twoTo 53 = twoTo 52 + twoTo 52 := by decide
  unfold ofFields at finite ⊢
  split at finite
  · split at finite <;> cases finite
  next number =>
    rw [if_neg number]
    split at finite
    next bottom =>
      cases finite
      exact ⟨number, by omega, if_pos bottom⟩
    next normal =>
      cases finite
      exact ⟨number, by omega, if_neg normal⟩

theorem exponent_le_of_lt {x y : UnpackedFloat} {m n : Nat} {e f : Int} (first : ofUnpacked x = .finite false m e)
    (second : ofUnpacked y = .finite false n f) (less : x.lt y = true) : m = 0 ∨ e ≤ f := by
  cases x with
  | infinity sign => exact absurd first nofun
  | notANumber => cases first
  | zero sign =>
    injection first with _ zero
    exact .inl zero.symm
  | finite sign mantissa exponent positive =>
    cases y with
    | infinity other => exact absurd second nofun
    | notANumber => cases second
    | zero other =>
      cases sign <;> cases first
      cases less
    | finite other =>
      cases sign <;> cases first
      cases other <;> cases second
      right
      -- Exponents are compared before mantissas.
      by_contra more
      have greater : compare e f = .gt := compare_gt_iff_gt.mpr (by omega)
      change (some ((compare e f).then (compare m n)) == some Ordering.lt) = true at less
      rw [greater] at less
      cases less

theorem ofFloat_negligible : ofFloat Decimal.negligible = .finite false 4835703278458517 (-82) := by
  decide +kernel

/-- The fields of a finite double whose absolute value is negligible. The bits of
that absolute value are those of the double without its sign. -/
theorem fields_of_negligible {x : Float} {negative : Bool} {mantissa : Nat} {exponent : Int}
    (finite : ofUnpacked x.toModel.unpack = .finite negative mantissa exponent)
    (less : x.abs < Decimal.negligible) : mantissa < twoTo 53 ∧ (mantissa = 0 ∨ exponent ≤ -82) := by
  rw [Float.Model.unpack, unpack_eq_assemble, ofUnpacked_assemble] at finite
  obtain ⟨number, bound, unsigned⟩ := ofFields_finite (BitVec.isLt _) finite
  have absolute : ofUnpacked x.abs.toModel.unpack = .finite false mantissa exponent := by
    rw [← unsigned, ← isMinus, ← ofUnpacked_assemble, ← unpack_packComponents, ← pack_abs_assemble,
      ← unpack_eq_assemble]
    · rfl
    · exact fun top => number (congrArg BitVec.toNat top)
  have limit := ofFloat_negligible
  rw [ofFloat_eq_ofUnpacked] at limit
  exact ⟨bound, exponent_le_of_lt absolute limit (of_decide_eq_true less)⟩

theorem lt_of_negligible {x : Float} {negative : Bool} {mantissa : Nat} {exponent : Int}
    (finite : ofUnpacked x.toModel.unpack = .finite negative mantissa exponent)
    (less : x.abs < Decimal.negligible) : (mantissa : ℚ) * 2 ^ exponent < 1 / 20000 := by
  obtain ⟨bound, rfl | low⟩ := fields_of_negligible finite less
  · norm_num
  · have short : (mantissa : ℚ) < 2 ^ 53 := by exact_mod_cast bound
    have scale : (2 : ℚ) ^ exponent ≤ 2 ^ (-82 : Int) := zpow_le_zpow_right₀ (by norm_num) low
    calc
      (mantissa : ℚ) * 2 ^ exponent ≤ 2 ^ 53 * 2 ^ (-82 : Int) :=
        mul_le_mul short.le scale (zpow_nonneg (by norm_num) _) (by norm_num)
      _ < 1 / 20000 := by norm_num

/-- A quotient rounded to the nearest integer is half a unit off at most. -/
theorem roundDiv_nearest (num : Nat) {den : Nat} (positive : 0 < den) :
    2 * num ≤ 2 * (roundDiv num den * den) + den ∧ 2 * (roundDiv num den * den) ≤ 2 * num + den := by
  have cut := Nat.div_add_mod' num den
  have part := Nat.mod_lt num positive
  unfold roundDiv
  dsimp only
  split
  next down =>
    simp only [Bool.or_eq_true, decide_eq_true_eq, Bool.and_eq_true, beq_iff_eq] at down
    omega
  next up =>
    simp only [Bool.or_eq_true, decide_eq_true_eq] at up
    simp only [Nat.succ_mul]
    omega

theorem abs_roundDiv_sub (num : Nat) {den : Nat} (positive : 0 < den) :
    |(roundDiv num den : ℚ) - num / den| ≤ 1 / 2 := by
  obtain ⟨above, below⟩ := roundDiv_nearest num positive
  have above : 2 * (num : ℚ) ≤ 2 * (roundDiv num den * den) + den := by exact_mod_cast above
  have below : 2 * ((roundDiv num den : ℚ) * den) ≤ 2 * num + den := by exact_mod_cast below
  have size : (0 : ℚ) < den := by exact_mod_cast positive
  rw [abs_sub_le_iff]
  constructor
  · rw [sub_le_comm, le_div_iff₀ size]
    linarith
  · rw [sub_le_iff_le_add, div_le_iff₀ size]
    linarith

theorem scaleDown_ratio (num : Nat) {den : Nat} (exponent : Int) (positive : 0 < den) :
    0 < (scaleDown num den exponent).2 ∧
      ((scaleDown num den exponent).1 : ℚ) / (scaleDown num den exponent).2 = num / den / 2 ^ exponent := by
  unfold scaleDown
  split
  next up =>
    obtain ⟨n, rfl⟩ := Int.eq_ofNat_of_zero_le up
    refine ⟨Nat.mul_pos positive (Nat.pow_pos (by decide)), ?_⟩
    simp [twoTo, div_div]
  next down =>
    obtain ⟨n, rfl⟩ := Int.exists_eq_neg_ofNat (by omega : exponent ≤ 0)
    refine ⟨positive, ?_⟩
    simp [twoTo, mul_div_right_comm]

end LessCss.Binary64
