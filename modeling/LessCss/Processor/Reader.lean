import LessCss.Expression.Reader
import LessCss.Processor.Basic

/-! Reading an expression in place, with the processor that counts the open
parentheses. What is read and what is left is bounded as in `Environment`. -/

set_option autoImplicit false

namespace LessCss

def Reading.widen {n m : Nat} (longer : n ≤ m) : Reading n → Reading m
  | .found value rest shorter => .found value rest (Nat.lt_of_lt_of_le shorter longer)
  | .absent rest bounded => .absent rest (Nat.le_trans bounded longer)

def Reading.goOn {k n : Nat} (shorter : k < n) (last : Upto k Value) : Reading n :=
  .found last.result last.rest (Nat.lt_of_le_of_lt last.bounded shorter)

def Reading.putBack {n : Nat} (token : Token) (rest : Tokens) (bounded : rest.length ≤ n) : Reading (n + 1) :=
  .absent (token :: rest) (Nat.succ_le_succ bounded)

theorem length_tail_trimLeft_le (tokens : Tokens) : tokens.trimLeft.tail.length ≤ tokens.length := by
  have := tokens.length_trimLeft_le
  rw [List.length_tail]
  omega

def Reading.closeGroup {n : Nat} (value : Value) (rest : Tokens) (shorter : rest.length < n) :
    Reading (n + 1) :=
  .found value rest.trimLeft.tail
    (Nat.lt_succ_of_lt (Nat.lt_of_le_of_lt (length_tail_trimLeft_le rest) shorter))

def Reading.applied (name opening : Token) {tokens : Tokens} (value : Value)
    (read : Upto tokens.length (List Value)) : Reading (name :: opening :: tokens).length :=
  .found value read.rest (Nat.lt_succ_of_le (Nat.le_succ_of_le read.bounded))

def Upto.widen {n m : Nat} {α : Type} (longer : n ≤ m) (upto : Upto n α) : Upto m α :=
  ⟨upto.result, upto.rest, Nat.le_trans upto.bounded longer⟩

namespace Setting

def valueOf? (setting : Setting) (name : String) (at_ : Token) : Processing (Option Value) :=
  match setting.lookup? name with
  | some var => var.value? at_
  | none => throw (.faulty at_ (.undefinedVariable name))

def resolve (setting : Setting) (token : Token) : Processing Tokens :=
  match setting.lookup? token.text with
  | some var => var.tokens token
  | none => throw (.faulty token (.undefinedVariable token.text))

def pieceText (setting : Setting) (at_ : Token) (piece : Text.Piece) : Processing String :=
  match piece with
  | .char c => return String.singleton c
  | .hole name =>
    match setting.lookup? ("@" ++ name) with
    | some var => do return Environment.holeText (← var.tokens at_)
    | none => throw (.faulty at_ (.undefinedHole ("@" ++ name)))

def interpolate (setting : Setting) (at_ : Token) (text : String) : Processing String := do
  let texts ← (Text.pieces text.toList).mapM (setting.pieceText at_)
  return String.join texts

def interpolateToken (setting : Setting) (token : Token) : Processing Token := do
  let text ← setting.interpolate token token.text
  return { token with text }

def literal? (setting : Setting) (token : Token) : Processing (Option Value) := do
  match token.kind with
  | .hash => return some (.ofHash token.text)
  | .number | .percentage | .dimension => return some (.ofNumeric token.text)
  | .string => return some (.ofStringLiteral (← setting.interpolate token token.text))
  | .url => return some (.ofUrlLiteral (← setting.interpolate token token.text))
  | .identifier => return some (.ofIdentifier (← setting.interpolate token token.text))
  | .atKeyword => setting.valueOf? token.text token
  | _ => return none

def indirect? (setting : Setting) (token : Token) : Processing (Option Value) := do
  let name ← setting.resolve token
  setting.valueOf? ("@" ++ (Text.unquote (Text.trim name.text)).1) token

def escaped (setting : Setting) (token : Token) : Processing Value := do
  let text ← setting.interpolate token token.text
  return .keyword (Text.unquote text).1

mutual

def statement (setting : Setting) (tokens : Tokens) : Processing (Reading tokens.length) := do
  match ← setting.constant tokens.trimLeft with
  | .absent rest bounded => return .widen tokens.length_trimLeft_le (.absent rest bounded)
  | .found value rest shorter =>
    let last ← setting.climb none value tokens.trimLeft.startsNumeric rest
    return .widen tokens.length_trimLeft_le (.goOn shorter last)
termination_by 3 * tokens.length + 1
decreasing_by
  · have := tokens.length_trimLeft_le
    omega
  · have := tokens.length_trimLeft_le
    omega

def climb (setting : Setting) (last : Option Operator) (lhs : Value) (literal : Bool)
    (tokens : Tokens) : Processing (Upto tokens.length Value) := do
  let grouped := (← get).isGrouped
  match tokens.operator? with
  | none => return .all lhs tokens
  | some ⟨op, mark, after, shorter⟩ =>
    if last.any (op.precedence ≤ ·.precedence) then return .all lhs tokens
    else if op = .divide && !grouped && literal && after.startsNumeric then return .all lhs tokens
    else
      match ← setting.constant after with
      | .absent rest _ => throw (.unexpected (rest.head?.getD (.derived .eos "" mark)) .operand)
      | .found rhs rest shorter' =>
        let right ← setting.climb (some op) rhs after.startsNumeric rest
        let value ← Processing.ofExcept (Environment.operate mark op lhs right.result)
        let last ← setting.climb last value false right.rest
        return .widen (Nat.le_trans right.bounded (Nat.le_of_lt (Nat.lt_trans shorter' shorter))) last
termination_by 3 * tokens.length
decreasing_by
  · omega
  · omega
  · have := right.bounded
    omega

/-- Reads a literal, a variable, a call of a function, a group, or a negation.
What is no constant is put back. -/
def constant (setting : Setting) (tokens : Tokens) : Processing (Reading tokens.length) :=
  match tokens with
  | [] => return .unread []
  | token :: rest =>
    if token.kind = .parenOpen then setting.group token rest
    else if token.isMark "-" then setting.negation token rest
    else
      match rest with
      | [] => do return .ofOption (← setting.literal? token) token [] []
      | next :: after =>
        if next.kind = .parenOpen && (token.kind == .identifier || token.isMark "%") then
          if token.kind = .identifier && !setting.library.contains token.text then
            return .unread (token :: next :: after)
          else setting.application token next after
        else if next.kind = .atKeyword && token.isMark "@" then do
          return .ofOption (← setting.indirect? next) token [next] after
        else if next.kind = .string && token.isMark "~" then do
          return .ofOption (some (← setting.escaped next)) token [next] after
        else do return .ofOption (← setting.literal? token) token [] (next :: after)
termination_by 3 * tokens.length
decreasing_by all_goals simp only [List.length_cons]; omega

/-- Reads a group after its opening parenthesis. It has a value if it holds
exactly one expression; what has been computed otherwise is put back. -/
def group (setting : Setting) (opening : Token) (tokens : Tokens) :
    Processing (Reading (tokens.length + 1)) := do
  if (tokens.takeGroup? 0).isNone then
    throw (.value opening.position ("(" ++ tokens.normalized) .unclosedGroup)
  else
    match ← Processing.grouped (setting.statement tokens) with
    | .absent rest bounded => return .putBack opening rest bounded
    | .found value rest shorter =>
      if rest.trimLeft.headIs .parenClose then return .closeGroup value rest shorter
      else return .putBack opening (value.toToken opening :: rest) shorter
termination_by 3 * tokens.length + 2

def negation (setting : Setting) (mark : Token) (tokens : Tokens) :
    Processing (Reading (tokens.length + 1)) := do
  match ← setting.constant tokens with
  | .absent rest bounded => return .putBack mark rest bounded
  | .found value rest shorter =>
    let value ← Processing.ofExcept (Environment.operate mark .subtract (.number 0 "") value)
    return .found value rest (Nat.lt_succ_of_lt shorter)
termination_by 3 * tokens.length + 1

def application (setting : Setting) (name opening : Token) (tokens : Tokens) :
    Processing (Reading (name :: opening :: tokens).length) := do
  let read ← Processing.grouped (setting.arguments name tokens)
  let value ← Processing.ofExcept (setting.library.call name.text name read.result)
  return .applied name opening value read
termination_by 3 * tokens.length + 3

def arguments (setting : Setting) (at_ : Token) (tokens : Tokens) :
    Processing (Upto tokens.length (List Value)) := do
  match ← setting.statement tokens with
  | .found value rest shorter =>
    return .widen (Nat.le_of_lt shorter) (← setting.argumentsAfter at_ [value] rest)
  | .absent [] _ => throw (Environment.unclosedCall at_)
  | .absent (token :: rest) bound =>
    if token.kind = .parenClose then
      return .widen bound (← setting.argumentsAfter at_ [] (token :: rest))
    else
      return .widen (Nat.le_of_succ_le bound)
        (← setting.argumentsAfter at_ [.keyword token.text] rest)
termination_by 3 * tokens.length + 2
decreasing_by
  · omega
  · omega
  · omega
  · simp only [List.length_cons] at bound; omega

def argumentsAfter (setting : Setting) (at_ : Token) (read : List Value) (tokens : Tokens) :
    Processing (Upto tokens.length (List Value)) := do
  match start : tokens.trimLeft with
  | [] => throw (Environment.unclosedCall at_)
  | token :: rest =>
    have shorter := tokens.length_lt_of_trimLeft start
    if token.text == "," || token.text == ";" then
      let after ← setting.arguments at_ rest
      return .widen (Nat.le_of_lt shorter) ⟨read ++ after.result, after.rest, after.bounded⟩
    else if token.kind = .parenClose then return .widen (Nat.le_of_lt shorter) (.all read rest)
    else throw (.unexpected token .closingParen)
termination_by 3 * tokens.length + 1

end

end Setting

end LessCss
