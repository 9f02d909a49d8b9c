import LessCss.Expression.Scope
import LessCss.Proofs.Processor.Watch

/-! Evaluation of values with nothing that makes it end but a clock: the readers take
tokens off a list and put others back, variables are looked up wherever they are named,
and no type says how much is left. One stage of the clock is defined by the one before. -/

set_option autoImplicit false

namespace LessCss

open Environment

/-- The computations that call each other. Readers also give what they leave. -/
structure Stage where
  constant : Tokens → Watching (Option Value × Tokens)
  statement : Tokens → Watching (Option Value × Tokens)
  climb : Option Operator → Value → Bool → Tokens → Watching (Value × Tokens)
  arguments : Token → Tokens → Watching (List Value × Tokens)
  copy : Nat → Tokens → Watching (Tokens × Tokens)
  items : Option Kind → Tokens → Watching Tokens
  value : Tokens → Watching Tokens
  conjunction : Token → Tokens → Watching Bool

namespace Stage

open Watching (note isGrouped grouped guarded)

def endless : Stage where
  constant _ := .endless
  statement _ := .endless
  climb _ _ _ _ := .endless
  arguments _ _ := .endless
  copy _ _ := .endless
  items _ _ := .endless
  value _ := .endless
  conjunction _ _ := .endless

variable (library : Library) (scope : Scope) (inner : Stage)

/-! ### Variables and holes -/

def valueOf? (name : String) (at_ : Token) : Watching (Option Value) :=
  match scope.find? name with
  | none => throw (.faulty at_ (.undefinedVariable name))
  | some tokens => do
    match ← guarded name at_ (inner.statement tokens) with
    | (some value, rest) => return if rest.trimLeft.isEmpty then some value else none
    | (none, _) => return none

def tokensOf (name : String) (at_ : Token) (tokens : Tokens) : Watching Tokens := do
  return (← guarded name at_ (inner.value tokens)).trim

def resolve (token : Token) : Watching Tokens :=
  match scope.find? token.text with
  | none => throw (.faulty token (.undefinedVariable token.text))
  | some tokens => inner.tokensOf token.text token tokens

def pieceText (at_ : Token) : Text.Piece → Watching String
  | .char c => return String.singleton c
  | .hole name =>
    match scope.find? ("@" ++ name) with
    | none => throw (.faulty at_ (.undefinedHole ("@" ++ name)))
    | some tokens => do return holeText (← inner.tokensOf ("@" ++ name) at_ tokens)

def interpolate (at_ : Token) (text : String) : Watching String := do
  let texts ← (Text.pieces text.toList).mapM (inner.pieceText scope at_)
  return String.join texts

def interpolateToken (token : Token) : Watching Token := do
  let text ← inner.interpolate scope token token.text
  return { token with text }

/-! ### Readers -/

def literal? (token : Token) : Watching (Option Value) := do
  match token.kind with
  | .hash => return some (.ofHash token.text)
  | .number | .percentage | .dimension => return some (.ofNumeric token.text)
  | .string => return some (.ofStringLiteral (← inner.interpolate scope token token.text))
  | .url => return some (.ofUrlLiteral (← inner.interpolate scope token token.text))
  | .identifier => return some (.ofIdentifier (← inner.interpolate scope token token.text))
  | .atKeyword => inner.valueOf? scope token.text token
  | _ => return none

def indirect? (token : Token) : Watching (Option Value) := do
  let name ← inner.resolve scope token
  inner.valueOf? scope ("@" ++ (Text.unquote (Text.trim name.text)).1) token

def escaped (token : Token) : Watching Value := do
  let text ← inner.interpolate scope token token.text
  return .keyword (Text.unquote text).1

def taken (value? : Option Value) (first rest : Tokens) : Option Value × Tokens :=
  (value?, if value?.isSome then rest else first ++ rest)

def group (opening : Token) (tokens : Tokens) : Watching (Option Value × Tokens) := do
  if (tokens.takeGroup? 0).isNone then
    throw (.value opening.position ("(" ++ tokens.normalized) .unclosedGroup)
  else
    match ← grouped (inner.statement tokens) with
    | (none, rest) => return (none, opening :: rest)
    | (some value, rest) =>
      if rest.trimLeft.headIs .parenClose then return (some value, rest.trimLeft.tail)
      else return (none, opening :: value.toToken opening :: rest)

def negation (mark : Token) (tokens : Tokens) : Watching (Option Value × Tokens) := do
  match ← inner.constant tokens with
  | (none, rest) => return (none, mark :: rest)
  | (some value, rest) =>
    return (some (← MonadExcept.ofExcept (operate mark .subtract (.number 0 "") value)), rest)

def application (name : Token) (tokens : Tokens) : Watching (Option Value × Tokens) := do
  let (arguments, rest) ← grouped (inner.arguments name tokens)
  return (some (← MonadExcept.ofExcept (library.call name.text name arguments)), rest)

def constantStep (tokens : Tokens) : Watching (Option Value × Tokens) :=
  match tokens with
  | [] => return (none, [])
  | token :: rest =>
    if token.kind = .parenOpen then inner.group token rest
    else if token.isMark "-" then inner.negation token rest
    else
      match rest with
      | [] => do return taken (← inner.literal? scope token) [token] []
      | next :: after =>
        if next.kind = .parenOpen && (token.kind == .identifier || token.isMark "%") then
          if token.kind = .identifier && !library.contains token.text then return (none, token :: next :: after)
          else inner.application library token after
        else if next.kind = .atKeyword && token.isMark "@" then do
          return taken (← inner.indirect? scope next) [token, next] after
        else if next.kind = .string && token.isMark "~" then do
          return (some (← inner.escaped scope next), after)
        else do return taken (← inner.literal? scope token) [token] (next :: after)

def statementStep (tokens : Tokens) : Watching (Option Value × Tokens) := do
  match ← inner.constant tokens.trimLeft with
  | (none, rest) => return (none, rest)
  | (some value, rest) =>
    let (value, rest) ← inner.climb none value tokens.trimLeft.startsNumeric rest
    return (some value, rest)

def climbStep (last : Option Operator) (lhs : Value) (literal : Bool) (tokens : Tokens) :
    Watching (Value × Tokens) := do
  let grouped ← isGrouped
  match tokens.operator? with
  | none => return (lhs, tokens)
  | some ⟨op, mark, after, _⟩ =>
    if last.any (op.precedence ≤ ·.precedence) then return (lhs, tokens)
    else if op = .divide && !grouped && literal && after.startsNumeric then return (lhs, tokens)
    else
      match ← inner.constant after with
      | (none, rest) => throw (.unexpected (rest.head?.getD (.derived .eos "" mark)) .operand)
      | (some rhs, rest) =>
        let (rhs, rest) ← inner.climb (some op) rhs after.startsNumeric rest
        let value ← MonadExcept.ofExcept (operate mark op lhs rhs)
        note (.turned tokens.length rest.length)
        inner.climb last value false rest

def argumentsAfter (at_ : Token) (before : Nat) (read : List Value) (tokens : Tokens) :
    Watching (List Value × Tokens) :=
  match tokens.trimLeft with
  | [] => throw (unclosedCall at_)
  | token :: rest =>
    if token.text == "," || token.text == ";" then do
      note (.turned before rest.length)
      let (more, rest) ← inner.arguments at_ rest
      return (read ++ more, rest)
    else if token.kind = .parenClose then return (read, rest)
    else throw (.unexpected token .closingParen)

def argumentsStep (at_ : Token) (tokens : Tokens) : Watching (List Value × Tokens) := do
  match ← inner.statement tokens with
  | (some value, rest) => inner.argumentsAfter at_ tokens.length [value] rest
  | (none, []) => throw (unclosedCall at_)
  | (none, token :: rest) =>
    if token.kind = .parenClose then inner.argumentsAfter at_ tokens.length [] (token :: rest)
    else inner.argumentsAfter at_ tokens.length [.keyword token.text] rest

/-! ### Values and conditions -/

def substituted (token : Token) : Watching Tokens :=
  if token.kind = .atKeyword then inner.resolve scope token else pure [token]

def copyStep (depth : Nat) (tokens : Tokens) : Watching (Tokens × Tokens) :=
  match tokens with
  | [] => return ([], [])
  | token :: rest =>
    if token.kind = .parenClose && depth = 0 then return ([token], rest)
    else do
      let part ← inner.substituted scope token
      note (.turned (rest.length + 1) rest.length)
      let (more, after) ← inner.copy
        (if token.kind = .parenClose then depth - 1 else if token.kind = .parenOpen then depth + 1 else depth) rest
      return (part ++ more, after)

def carryIdentifier (token : Token) (tokens : Tokens) : Watching (Tokens × Tokens) :=
  match tokens with
  | [] => do return ([← inner.interpolateToken scope token], [])
  | next :: rest =>
    if next.kind ≠ .parenOpen then do return ([← inner.interpolateToken scope token], next :: rest)
    else if deferredFunctions.contains token.text.toLower then do
      let (group, after) ← inner.copy 0 rest
      return (token :: next :: group, after)
    else do return ([← inner.interpolateToken scope token, next], rest)

def carry (token : Token) (tokens : Tokens) : Watching (Tokens × Tokens) := do
  match token.kind with
  | .atKeyword => return (← inner.resolve scope token, tokens)
  | .identifier => inner.carryIdentifier scope token tokens
  | .string | .url => return ([← inner.interpolateToken scope token], tokens)
  | _ => return ([token], tokens)

def itemsStep (last : Option Kind) (tokens : Tokens) : Watching Tokens :=
  match tokens.trimLeft with
  | [] => return []
  | first :: others => do
    let space := gap last tokens
    match ← inner.statement (first :: others) with
    | (some value, rest) =>
      let written := space ++ [value.toToken first]
      note (.turned tokens.length rest.length)
      return written ++ (← inner.items (lastKind last written) rest)
    | (none, []) => return space
    | (none, token :: rest) =>
      let (carried, rest) ← inner.carry scope token rest
      let written := space ++ carried
      note (.turned tokens.length rest.length)
      return written ++ (← inner.items (lastKind last written) rest)

def valueStep (tokens : Tokens) : Watching Tokens :=
  if tokens.computes library then inner.items none tokens
  else tokens.mapM (inner.interpolateToken scope)

def conjunct (at_ : Token) (tokens : Tokens) : Watching (Bool × Tokens) := do
  let negated := tokens.trimLeft.headText? == some "not"
  let start := if negated then Tokens.trimLeft tokens.trimLeft.tail else tokens.trimLeft
  let found := start.head?.getD at_
  match ← inner.statement start with
  | (some (.boolean holds), rest) => return (holds != negated, rest)
  | (some value, _) => throw (.faulty found (.notBoolean value.kind))
  | (none, _) => throw (.unexpected found .condition)

def conjunctionStep (at_ : Token) (tokens : Tokens) : Watching Bool := do
  let (holds, rest) ← inner.conjunct at_ tokens
  if !holds then return false
  else
    match rest.trimLeft with
    | [] => return true
    | token :: after =>
      if token.text == "and" then
        note (.turned tokens.length after.length)
        inner.conjunction at_ after
      else throw (.unexpected token .conjunction)

def holds (condition : Tokens) : Watching Bool :=
  let tokens := condition.trim
  inner.conjunction (tokens.head?.getD (.synthetic .eos "")) tokens

def next : Stage where
  constant := inner.constantStep library scope
  statement := inner.statementStep
  climb := inner.climbStep
  arguments := inner.argumentsStep
  copy := inner.copyStep scope
  items := inner.itemsStep scope
  value := inner.valueStep library scope
  conjunction := inner.conjunctionStep

end Stage

/-- What can be done in a scope while the clock allows so many calls, one inside the other. -/
def Scope.stage (library : Library) (scope : Scope) : Nat → Stage
  | 0 => .endless
  | clock + 1 => (scope.stage library clock).next library scope

end LessCss
