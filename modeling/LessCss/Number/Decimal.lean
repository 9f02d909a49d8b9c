import LessCss.Number.Binary64

/-! Decimal texts of doubles. Reading is correctly rounded. Writing keeps four
places, taken from the exact value with ties to even, and drops the zeros at
the end of the fraction. -/

set_option autoImplicit false

namespace LessCss.Decimal

def tenTo (exponent : Nat) : Nat := Nat.pow 10 exponent

def digitsValue (digits : List Char) : Nat :=
  digits.foldl (fun value digit => 10 * value + (digit.toNat - '0'.toNat)) 0

structure Numeral where
  negative : Bool
  whole : List Char
  fraction : List Char
  deriving DecidableEq, Repr

/-- Reads a sign, digits, a point and digits, and returns what follows. One of
the two groups of digits has to be there; without whole digits the point has
to be there too. -/
def Numeral.read? (cs : List Char) : Option (Numeral × List Char) :=
  let negative := cs.head? == some '-'
  let unsigned := if negative then cs.tail else cs
  let whole := unsigned.takeWhile Char.isDigit
  match unsigned.dropWhile Char.isDigit with
  | '.' :: rest =>
    let fraction := rest.takeWhile Char.isDigit
    if whole.isEmpty && fraction.isEmpty then none
    else some (⟨negative, whole, fraction⟩, rest.dropWhile Char.isDigit)
  | rest => if whole.isEmpty then none else some (⟨negative, whole, []⟩, rest)

def Numeral.value (numeral : Numeral) : Float :=
  Binary64.ofRatio numeral.negative (digitsValue (numeral.whole ++ numeral.fraction))
    (tenTo numeral.fraction.length)

def places : Nat := 4

def padded (width n : Nat) : List Char :=
  let digits := Nat.toDigits 10 n
  List.replicate (width - digits.length) '0' ++ digits

def dropZeros (digits : List Char) : List Char :=
  (digits.reverse.dropWhile (· == '0')).reverse

def writeUnits (negative : Bool) (units : Nat) : String :=
  let fraction := dropZeros (padded places (units % tenTo places))
  String.ofList
    ((if negative && units != 0 then ['-'] else []) ++ Nat.toDigits 10 (units / tenTo places) ++
      (if fraction.isEmpty then [] else '.' :: fraction))

/-- The number of ten-thousandths nearest to `mantissa * 2 ^ exponent`. -/
def unitsOf (mantissa : Nat) (exponent : Int) : Nat :=
  let scaled := Binary64.scaleDown (mantissa * tenTo places) 1 (-exponent)
  Binary64.roundDiv scaled.1 scaled.2

/-- Values closer to zero than this are written as zero. -/
def negligible : Float := 1e-9

def write (x : Float) : String :=
  if x.abs < negligible then "0"
  else
    match Binary64.ofFloat x with
    | .finite negative mantissa exponent => writeUnits negative (unitsOf mantissa exponent)
    | .infinite negative => if negative then "-inf" else "inf"
    | .nan => "NaN"

end LessCss.Decimal
