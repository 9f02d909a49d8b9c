import LessCss.Color
import LessCss.Token.Tokens
import LessCss.Value.Kind

/-! Values that expressions compute with, how they are read from token texts,
how they are written back, and operations between two of them. -/

set_option autoImplicit false

namespace LessCss

def units : List String :=
  ["em", "ex", "ch", "rem", "vw", "vh", "vmin", "vmax", "px", "in", "mm", "cm", "pt", "pc", "m", "s",
    "ms", "rad", "deg", "grad", "turn", "dpi", "dpcm", "dppx", "hz", "khz"]

def isUnit (text : String) : Bool := units.contains text.toLower

/-- A number with its unit; no unit is the empty text, a percentage has the unit `%`. -/
structure Quantity where
  value : Float
  unit : String

namespace Quantity

def isUnitText (cs : List Char) : Bool :=
  cs == ['%'] || cs.all Char.isAlpha

def read? (text : String) : Option Quantity :=
  match Decimal.Numeral.read? text.toList with
  | some (numeral, unit) =>
    if isUnitText unit then some ⟨numeral.value, String.ofList unit⟩ else none
  | none => none

def isPercentage (quantity : Quantity) : Bool := quantity.unit == "%"

def isPlain (quantity : Quantity) : Bool := quantity.unit == ""

def ratio (quantity : Quantity) : Float := quantity.value / 100

def kind (quantity : Quantity) : ValueKind :=
  if quantity.isPlain then .number else if quantity.isPercentage then .percentage else .dimension

def tokenKind (quantity : Quantity) : Kind :=
  if quantity.isPlain then .number else if quantity.isPercentage then .percentage else .dimension

/-- The unit of a result: that of the first operand that has one. -/
def jointUnit (a b : Quantity) : String :=
  if a.unit.isEmpty then b.unit else a.unit

def css (quantity : Quantity) : String := Decimal.write quantity.value ++ quantity.unit

end Quantity

inductive Value where
  | quantity (quantity : Quantity)
  /-- The name of a unit that stands alone. -/
  | unit (name : String)
  | color (color : Color)
  /-- Without a quote it is a keyword or an escaped text. -/
  | string (text : String) (quote : Option Text.Quote)
  | url (url : String) (quote : Option Text.Quote)
  | boolean (value : Bool)

namespace Value

def number (value : Float) (unit : String) : Value := .quantity ⟨value, unit⟩

def keyword (text : String) : Value := .string text none

def ofStringLiteral (text : String) : Value :=
  let (inner, quote) := Text.unquote text
  .string inner quote

/-- What stands between the first opening parenthesis of a text and its last
character; a text without such a parenthesis is taken whole. -/
def urlInner (cs : List Char) : List Char :=
  match cs.dropWhile (· != '(') with
  | [] => cs
  | _ :: inner => inner.dropLast

def ofUrlLiteral (text : String) : Value :=
  let (inner, quote) := Text.unquote (String.ofList (Text.trimChars (urlInner text.toList)))
  .url inner quote

/-- The value of an identifier: a truth value, a unit, a color, or else a keyword. -/
def ofIdentifier (text : String) : Value :=
  if text = "true" then .boolean true
  else if text = "false" then .boolean false
  else if isUnit text then .unit text
  else
    match Color.ofName? text with
    | some c => .color c
    | none => keyword text

def ofHash (text : String) : Value :=
  match Color.ofHash? text with
  | some c => .color c
  | none => keyword text

def ofNumeric (text : String) : Value :=
  match Quantity.read? text with
  | some q => .quantity q
  | none => keyword text

def kind : Value → ValueKind
  | .quantity q => q.kind
  | .unit _ => .unit
  | .color _ => .color
  | .string .. => .string
  | .url .. => .url
  | .boolean _ => .boolean

def css : Value → String
  | .quantity q => q.css
  | .unit name => name
  | .color c => c.css
  | .string text quote => Text.writeQuoted text quote
  | .url inner quote => "url(" ++ Text.writeQuoted inner quote ++ ")"
  | .boolean b => if b then "true" else "false"

def plain : Value → String
  | .string text _ => text
  | value => value.css

/-- A color is a hash token if it is written with a hash mark. -/
def colorTokenKind (color : Color) : Kind :=
  match color.spelling with
  | some spelling => if spelling.toList.head? = some '#' then .hash else .identifier
  | none => if color.alpha < 1 then .identifier else .hash

def tokenKind : Value → Kind
  | .quantity q => q.tokenKind
  | .unit _ => .identifier
  | .boolean _ => .identifier
  | .color c => colorTokenKind c
  | .string _ (some _) => .string
  | .string _ none => .identifier
  | .url .. => .url

def toToken (value : Value) (at_ : Token) : Token :=
  .derived value.tokenKind value.css at_

end Value

/-- The four arithmetic operations; a comparison is no arithmetic and counts as division. -/
def Operator.arithmetic (op : Operator) (a b : Float) : Float :=
  match op with
  | .add => a + b
  | .subtract => a - b
  | .multiply => a * b
  | _ => a / b

def Operator.ordered (op : Operator) (a b : Float) : Bool :=
  match op with
  | .lessThan => a < b
  | .greaterThan => a > b
  | .lessOrEqual => a ≤ b
  | _ => a ≥ b

namespace Quantity

def operate (op : Operator) (a b : Quantity) : Except OperationError Quantity :=
  if op = .divide && b.value == 0 then .error .divisionByZero
  else .ok ⟨op.arithmetic a.value b.value, a.jointUnit b⟩

/-- Equal values; units have to be equal only if both are there. -/
def equals (a b : Quantity) : Bool :=
  a.value == b.value && (a.unit == b.unit || a.unit.isEmpty || b.unit.isEmpty)

end Quantity

namespace Color

/-- Division by a channel of zero gives the greatest channel, or zero for zero. -/
def operateChannel (op : Operator) (x y : Float) : Float :=
  if op = .divide && y == 0 then if x > 0 then 255 else 0 else op.arithmetic x y

def operate (op : Operator) (a b : Color) : Color :=
  a.zipChannels b (operateChannel op)

def operateNumber (op : Operator) (color : Color) (number : Float) : Except OperationError Color :=
  if op = .divide && number == 0 then .error .divisionByZero
  else .ok (color.mapChannels fun x => op.arithmetic x number)

end Color

namespace Value

def equals : Value → Value → Bool
  | .quantity a, .quantity b => a.equals b
  | .color a, .color b => a.same b
  | .string a _, .string b _ => a == b
  | .unit a, .unit b => a.toLower == b.toLower
  | .url a _, .url b _ => a == b
  | .boolean a, .boolean b => a == b
  | _, _ => false

def compare (op : Operator) (lhs rhs : Value) : Except OperationError Value :=
  if op = .equals then .ok (.boolean (lhs.equals rhs))
  else
    match lhs, rhs with
    | .quantity a, .quantity b => .ok (.boolean (op.ordered a.value b.value))
    | lhs, rhs => .error (.unsupported op lhs.kind rhs.kind)

def calculate (op : Operator) (lhs rhs : Value) : Except OperationError Value :=
  match lhs, rhs with
  | .quantity a, .quantity b => (a.operate op b).map .quantity
  | .color a, .color b => .ok (.color (a.operate op b))
  | .color a, .quantity b => (a.operateNumber op b.value).map .color
  | .quantity a, .color b =>
    if op = .add || op = .multiply then (b.operateNumber op a.value).map .color
    else .error (.colorOperand a.kind)
  | lhs, rhs => .error (.unsupported op lhs.kind rhs.kind)

def operate (op : Operator) (lhs rhs : Value) : Except OperationError Value :=
  if op.isComparison then compare op lhs rhs else calculate op lhs rhs

end Value

end LessCss
