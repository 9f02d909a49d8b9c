/-! Doubles as exact numbers. A finite double is an integer times a power of
two; reading a ratio back into a double rounds to the nearest one, and a tie
goes to the even mantissa. -/

set_option autoImplicit false

namespace LessCss

/-- What a double denotes. A finite one is `mantissa * 2 ^ exponent` with its sign. -/
inductive Binary64 where
  | finite (negative : Bool) (mantissa : Nat) (exponent : Int)
  | infinite (negative : Bool)
  | nan
  deriving DecidableEq, Repr

namespace Binary64

def twoTo (exponent : Nat) : Nat := Nat.pow 2 exponent

def ofBits (bits : Nat) : Binary64 :=
  let negative := bits / twoTo 63 % 2 == 1
  let field : Nat := bits / twoTo 52 % twoTo 11
  let fraction := bits % twoTo 52
  if field = 2047 then if fraction = 0 then .infinite negative else .nan
  else if field = 0 then .finite negative fraction (-1074)
  else .finite negative (twoTo 52 + fraction) ((field : Int) - 1075)

def ofFloat (x : Float) : Binary64 :=
  ofBits x.toBits.toNat

/-- The integer nearest to `num / den`; a tie goes to the even one. -/
def roundDiv (num den : Nat) : Nat :=
  let quotient := num / den
  let twice := 2 * (num % den)
  if twice < den || (twice == den && quotient % 2 == 0) then quotient else quotient + 1

def scaleDown (num den : Nat) (exponent : Int) : Nat × Nat :=
  if 0 ≤ exponent then (num, den * twoTo exponent.toNat) else (num * twoTo (-exponent).toNat, den)

/-- The exponent at which the mantissa of `num / den` has 53 bits, or the least
exponent there is. -/
def fittingExponent (num den : Nat) : Int :=
  let guess : Int := (num.log2 : Int) - den.log2 - 52
  let scaled := scaleDown num den guess
  max (if scaled.1 < twoTo 52 * scaled.2 then guess - 1 else guess) (-1074)

/-- The bits of the double nearest to `num / den`. Bit patterns of positive
doubles are in the order of their values, so a mantissa that rounds up to the
next power of two carries into the exponent field. -/
def ratioBits (num den : Nat) : Nat :=
  if num = 0 then 0
  else
    let exponent := fittingExponent num den
    let scaled := scaleDown num den exponent
    min ((exponent + 1074).toNat * twoTo 52 + roundDiv scaled.1 scaled.2) (2047 * twoTo 52)

def ofRatio (negative : Bool) (num den : Nat) : Float :=
  Float.ofBits (UInt64.ofNat ((if negative then twoTo 63 else 0) + ratioBits num den))

def ofScaled (negative : Bool) (mantissa : Nat) (exponent : Int) : Float :=
  let scaled := scaleDown mantissa 1 (-exponent)
  ofRatio negative scaled.1 scaled.2

def notANumber : Float :=
  Float.ofBits 0x7FF8000000000000

/-- The exact remainder of a division that truncates; it has the sign of the dividend. -/
def remainder (x y : Float) : Float :=
  match ofFloat x, ofFloat y with
  | .finite negative m₁ e₁, .finite _ m₂ e₂ =>
    if m₂ = 0 then notANumber
    else
      let exponent := min e₁ e₂
      let dividend := m₁ * twoTo (e₁ - exponent).toNat
      let divisor := m₂ * twoTo (e₂ - exponent).toNat
      ofScaled negative (dividend % divisor) exponent
  | .finite .., .infinite _ => x
  | _, _ => notANumber

def power (base : Float) (exponent : Nat) : Float :=
  go base exponent 1.0
where
  go (base : Float) (exponent : Nat) (result : Float) : Float :=
    let result := if exponent % 2 = 1 then result * base else result
    if exponent / 2 = 0 then result else go (base * base) (exponent / 2) result
  termination_by exponent
  decreasing_by omega

/-- The nearest value between the two bounds. No number stays no number. -/
def clamp (x low high : Float) : Float :=
  if x < low then low else if high < x then high else x

/-- The greater of two values; a number wins over no number. -/
def maximum (x y : Float) : Float :=
  if x.isNaN then y else if x < y then y else x

/-- The lesser of two values; a number wins over no number. -/
def minimum (x y : Float) : Float :=
  if x.isNaN then y else if y < x then y else x

end Binary64

end LessCss
