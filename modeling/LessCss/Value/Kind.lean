/-! The kinds of values and the operators between them, with the causes for
which an operation is refused. -/

set_option autoImplicit false

namespace LessCss

inductive ValueKind where
  | number
  | percentage
  | dimension
  | unit
  | color
  | string
  | url
  | boolean
  deriving DecidableEq, Repr

def ValueKind.name : ValueKind → String
  | .number => "Number"
  | .percentage => "Percentage"
  | .dimension => "Dimension"
  | .unit => "Unit"
  | .color => "Color"
  | .string => "String"
  | .url => "Url"
  | .boolean => "Boolean"

inductive Operator where
  | add
  | subtract
  | multiply
  | divide
  | equals
  | lessThan
  | greaterThan
  | lessOrEqual
  | greaterOrEqual
  deriving DecidableEq, Repr

namespace Operator

def ofText? : String → Option Operator
  | "+" => some .add
  | "-" => some .subtract
  | "*" => some .multiply
  | "/" => some .divide
  | "=" => some .equals
  | "<" => some .lessThan
  | ">" => some .greaterThan
  | "=<" => some .lessOrEqual
  | "<=" => some .lessOrEqual
  | ">=" => some .greaterOrEqual
  | _ => none

def text : Operator → String
  | .add => "+"
  | .subtract => "-"
  | .multiply => "*"
  | .divide => "/"
  | .equals => "="
  | .lessThan => "<"
  | .greaterThan => ">"
  | .lessOrEqual => "=<"
  | .greaterOrEqual => ">="

/-- A greater precedence binds more tightly. -/
def precedence : Operator → Nat
  | .add | .subtract => 2
  | .multiply | .divide => 3
  | .equals | .lessThan | .greaterThan | .lessOrEqual | .greaterOrEqual => 1

def isComparison (op : Operator) : Bool := op.precedence == 1

end Operator

inductive OperationError where
  | divisionByZero
  /-- A color may not be subtracted from, or divide, what is no color. -/
  | colorOperand (lhs : ValueKind)
  | unsupported (op : Operator) (lhs rhs : ValueKind)
  deriving DecidableEq, Repr

def OperationError.message : OperationError → String
  | .divisionByZero => "除数不能为 0"
  | .colorOperand lhs => "不能用 " ++ lhs.name ++ " 减去或除以颜色"
  | .unsupported op lhs rhs =>
    lhs.name ++ " 与 " ++ rhs.name ++ " 之间不支持运算 `" ++ op.text ++ "`"

end LessCss
