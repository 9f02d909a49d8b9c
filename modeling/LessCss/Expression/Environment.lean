import LessCss.Error
import LessCss.Function.Signature

/-! What an expression is evaluated in: functions and variables, and the texts
of holes that refer to variables.

A flag says whether the expression stands inside parentheses, where a slash
between two numbers divides. It carries over to the variables that are used. -/

set_option autoImplicit false

namespace LessCss

def Library.call (library : Library) (name : String) (at_ : Token) (arguments : List Value) :
    Except Error Value :=
  match library.find? name with
  | none => .error (.faulty at_ (.unknownFunction name))
  | some function =>
    if function.signature.accepts arguments then .ok (function.apply arguments)
    else
      let written := name ++ "(" ++ ", ".intercalate (arguments.map Value.css) ++ ")"
      .error (.value at_.position written (.signatureMismatch (function.signature.text name)))

structure Definition where
  /-- The value, if the variable holds exactly one expression. -/
  value? : (grouped : Bool) → (at_ : Token) → Except Error (Option Value)
  /-- The evaluated tokens, without blanks around them. -/
  tokens : (grouped : Bool) → (at_ : Token) → Except Error Tokens

structure Environment where
  library : Library
  lookup? : String → Option Definition

namespace Environment

def valueOf? (env : Environment) (grouped : Bool) (name : String) (at_ : Token) : Except Error (Option Value) :=
  match env.lookup? name with
  | some definition => definition.value? grouped at_
  | none => .error (.faulty at_ (.undefinedVariable name))

def resolve (env : Environment) (grouped : Bool) (token : Token) : Except Error Tokens :=
  match env.lookup? token.text with
  | some definition => definition.tokens grouped token
  | none => .error (.faulty token (.undefinedVariable token.text))

/-- The text that fills a hole: a single string loses its quotes. -/
def holeText (tokens : Tokens) : String :=
  match tokens with
  | [token] => if token.kind = .string then (Text.unquote token.text).1 else token.text
  | _ => tokens.text

def pieceText (env : Environment) (grouped : Bool) (at_ : Token) :
    Text.Piece → Except Error String
  | .char c => .ok (String.singleton c)
  | .hole name =>
    match env.lookup? ("@" ++ name) with
    | some definition => (definition.tokens grouped at_).map holeText
    | none => .error (.faulty at_ (.undefinedHole ("@" ++ name)))

def interpolate (env : Environment) (grouped : Bool) (at_ : Token) (text : String) : Except Error String := do
  let texts ← (Text.pieces text.toList).mapM (env.pieceText grouped at_)
  return String.join texts

def interpolateToken (env : Environment) (grouped : Bool) (token : Token) : Except Error Token := do
  return { token with text := ← env.interpolate grouped token token.text }

def operate (mark : Token) (op : Operator) (lhs rhs : Value) : Except Error Value :=
  match lhs.operate op rhs with
  | .ok value => .ok value
  | .error cause => .error (.faulty mark (.operation cause))

end Environment

end LessCss
