import LessCss.Expression.Environment

/-! Reading an expression at the start of a list of tokens, and computing its
value on the way. Comparisons bind least, then sums, then products; operators
of one precedence associate to the left.

Each reading tells what it leaves. A value leaves fewer tokens; without a value
there may be changed tokens, but not more of them: a group in parentheses that
begins with an expression and goes on keeps that expression's value. -/

set_option autoImplicit false

namespace LessCss

open List

inductive Reading (n : Nat) where
  | found (value : Value) (rest : Tokens) (shorter : rest.length < n)
  | absent (rest : Tokens) (bounded : rest.length ≤ n)

def Reading.unread (tokens : Tokens) : Reading tokens.length :=
  .absent tokens tokens.length.le_refl

theorem length_lt_after (first : Token) (more rest : Tokens) :
    rest.length < (first :: (more ++ rest)).length := by
  simp only [length_cons, length_append]
  omega

def Reading.ofOption (value? : Option Value) (first : Token) (more rest : Tokens) :
    Reading (first :: (more ++ rest)).length :=
  match value? with
  | some value => .found value rest (length_lt_after first more rest)
  | none => .unread (first :: (more ++ rest))

structure Upto (n : Nat) (α : Type) where
  result : α
  rest : Tokens
  bounded : rest.length ≤ n

def Upto.all {α : Type} (result : α) (tokens : Tokens) : Upto tokens.length α :=
  ⟨result, tokens, tokens.length.le_refl⟩

/-- An operator with its first token and the tokens after it, fewer than `n`. -/
structure OperatorAt (n : Nat) where
  op : Operator
  mark : Token
  rest : Tokens
  shorter : rest.length < n

namespace Tokens

def startsNumeric (tokens : Tokens) : Bool :=
  tokens.head?.any fun token => token.kind.isNumeric

def formsOperator (first second : Token) : Bool :=
  second.kind == .other &&
    ((first.text == "=" && second.text == "<") || (first.text == "<" && second.text == "=") ||
      (first.text == ">" && second.text == "="))

def operator? (tokens : Tokens) : Option (OperatorAt tokens.length) :=
  match start : trimLeft tokens with
  | [] => none
  | mark :: rest =>
    have bound : rest.length < tokens.length := by
      have := length_trimLeft_le tokens
      rw [start] at this
      exact this
    if mark.kind = .other then
      match rest with
      | [] => (Operator.ofText? mark.text).map fun op => ⟨op, mark, [], by simpa using bound⟩
      | next :: after =>
        have trimmed := length_trimLeft_le after
        have trimmed' := length_trimLeft_le (next :: after)
        if formsOperator mark next then
          (Operator.ofText? (mark.text ++ next.text)).map fun op =>
            ⟨op, mark, trimLeft after, by simp only [length_cons] at bound; omega⟩
        else
          (Operator.ofText? mark.text).map fun op =>
            ⟨op, mark, trimLeft (next :: after), by omega⟩
    else none

end Tokens

namespace Environment

def literal? (env : Environment) (grouped : Bool) (token : Token) : Except Error (Option Value) :=
  match token.kind with
  | .hash => .ok (some (.ofHash token.text))
  | .number | .percentage | .dimension => .ok (some (.ofNumeric token.text))
  | .string => (env.interpolate grouped token token.text).map (some ∘ Value.ofStringLiteral)
  | .url => (env.interpolate grouped token token.text).map (some ∘ Value.ofUrlLiteral)
  | .identifier => (env.interpolate grouped token token.text).map (some ∘ Value.ofIdentifier)
  | .atKeyword => env.valueOf? grouped token.text token
  | _ => .ok none

def indirect? (env : Environment) (grouped : Bool) (token : Token) : Except Error (Option Value) := do
  let name ← env.resolve grouped token
  let key := "@" ++ (Text.unquote (Text.trim name.text)).1
  env.valueOf? grouped key token

def escaped (env : Environment) (grouped : Bool) (token : Token) : Except Error Value :=
  (env.interpolate grouped token token.text).map fun text => .keyword (Text.unquote text).1

def unclosedCall (at_ : Token) : Error :=
  .unexpected (.derived .eos "" at_) .closingParen

mutual

def statement (env : Environment) (grouped : Bool) (tokens : Tokens) :
    Except Error (Reading tokens.length) := do
  have bound := tokens.length_trimLeft_le
  match ← env.constant grouped tokens.trimLeft with
  | .absent rest bounded => return .absent rest (by omega)
  | .found value rest shorter =>
    let ⟨value, rest, bounded⟩ ← env.climb grouped none value tokens.trimLeft.startsNumeric rest
    return .found value rest (by omega)
termination_by 3 * tokens.length + 1

/-- Applies operators that bind more tightly than `last` to the value on their
left, as long as they follow. Outside parentheses a slash between two numbers
that are written out ends the expression. -/
def climb (env : Environment) (grouped : Bool) (last : Option Operator) (lhs : Value)
    (literal : Bool) (tokens : Tokens) : Except Error (Upto tokens.length Value) := do
  match tokens.operator? with
  | none => return .all lhs tokens
  | some ⟨op, mark, after, shorter⟩ =>
    if last.any (op.precedence ≤ ·.precedence) then return .all lhs tokens
    else if op = .divide && !grouped && literal && after.startsNumeric then
      return .all lhs tokens
    else
      match ← env.constant grouped after with
      | .absent rest _ =>
        throw (.unexpected (rest.head?.getD (.derived .eos "" mark)) .operand)
      | .found rhs rest shorter' =>
        let ⟨rhs, rest, bounded⟩ ← env.climb grouped (some op) rhs after.startsNumeric rest
        let value ← operate mark op lhs rhs
        let ⟨value, rest, bounded'⟩ ← env.climb grouped last value false rest
        return ⟨value, rest, by omega⟩
termination_by 3 * tokens.length

def constant (env : Environment) (grouped : Bool) (tokens : Tokens) : Except Error (Reading tokens.length) :=
  match tokens with
  | [] => .ok (.unread [])
  | token :: rest =>
    if token.kind = .parenOpen then env.group token rest
    else if token.isMark "-" then env.negation grouped token rest
    else
      match rest with
      | [] => (env.literal? grouped token).map fun value => .ofOption value token [] []
      | next :: after =>
        if next.kind = .parenOpen && (token.kind == .identifier || token.isMark "%") then
          if token.kind = .identifier && !env.library.contains token.text then
            .ok (.unread (token :: next :: after))
          else env.application token next after
        else if next.kind = .atKeyword && token.isMark "@" then
          (env.indirect? grouped next).map fun value => .ofOption value token [next] after
        else if next.kind = .string && token.isMark "~" then
          (env.escaped grouped next).map fun value => .ofOption (some value) token [next] after
        else (env.literal? grouped token).map fun value => .ofOption value token [] (next :: after)
termination_by 3 * tokens.length
decreasing_by all_goals simp only [length_cons]; omega

/-- Reads a group after its opening parenthesis. It has a value if it holds
exactly one expression. -/
def group (env : Environment) (opening : Token) (tokens : Tokens) :
    Except Error (Reading (tokens.length + 1)) := do
  if (tokens.takeGroup? 0).isNone then
    throw (.value opening.position ("(" ++ tokens.normalized) .unclosedGroup)
  match ← env.statement true tokens with
  | .absent rest bounded =>
    return .absent (opening :: rest) (by simp only [length_cons]; omega)
  | .found value rest shorter =>
    if rest.trimLeft.headIs .parenClose then
      have bound := rest.length_trimLeft_le
      return .found value rest.trimLeft.tail (by simp only [length_tail]; omega)
    else
      return .absent (opening :: value.toToken opening :: rest)
        (by simp only [length_cons]; omega)
termination_by 3 * tokens.length + 2

def negation (env : Environment) (grouped : Bool) (mark : Token) (tokens : Tokens) :
    Except Error (Reading (tokens.length + 1)) := do
  match ← env.constant grouped tokens with
  | .absent rest bounded =>
    return .absent (mark :: rest) (by simp only [length_cons]; omega)
  | .found value rest shorter =>
    return .found (← operate mark .subtract (.number 0 "") value) rest (by omega)
termination_by 3 * tokens.length + 1

def application (env : Environment) (name opening : Token) (tokens : Tokens) :
    Except Error (Reading (name :: opening :: tokens).length) := do
  let ⟨arguments, rest, bounded⟩ ← env.arguments name tokens
  return .found (← env.library.call name.text name arguments) rest
    (by simp only [length_cons]; omega)
termination_by 3 * tokens.length + 3

/-- Reads arguments up to the parenthesis that closes the call. What is no
expression counts as a keyword. -/
def arguments (env : Environment) (at_ : Token) (tokens : Tokens) :
    Except Error (Upto tokens.length (List Value)) := do
  match ← env.statement true tokens with
  | .found value rest shorter =>
    let ⟨values, rest, bounded⟩ ← env.argumentsAfter at_ [value] rest
    return ⟨values, rest, by omega⟩
  | .absent [] _ => throw (unclosedCall at_)
  | .absent (token :: rest) bound =>
    if token.kind = .parenClose then
      let ⟨values, rest, bounded⟩ ← env.argumentsAfter at_ [] (token :: rest)
      return ⟨values, rest, by omega⟩
    else
      let ⟨values, rest, bounded⟩ ← env.argumentsAfter at_ [.keyword token.text] rest
      return ⟨values, rest, by simp only [length_cons] at bound; omega⟩
termination_by 3 * tokens.length + 2
decreasing_by
  · omega
  · omega
  · omega
  · simp only [length_cons] at bound; omega

def argumentsAfter (env : Environment) (at_ : Token) (read : List Value) (tokens : Tokens) :
    Except Error (Upto tokens.length (List Value)) := do
  have bound := tokens.length_trimLeft_le
  match start : tokens.trimLeft with
  | [] => throw (unclosedCall at_)
  | token :: rest =>
    if token.text == "," || token.text == ";" then
      let ⟨values, rest, bounded⟩ ← env.arguments at_ rest
      return ⟨read ++ values, rest, by simp only [start, length_cons] at bound; omega⟩
    else if token.kind = .parenClose then
      return ⟨read, rest, by simp only [start, length_cons] at bound; omega⟩
    else throw (.unexpected token .closingParen)
termination_by 3 * tokens.length + 1
decreasing_by simp only [start, length_cons] at bound; omega

end

end Environment

end LessCss
