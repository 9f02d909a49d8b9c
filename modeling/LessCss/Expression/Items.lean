import LessCss.Expression.Reader

/-! Evaluation of a whole value: the expressions in it are replaced by what they
compute, variables by their values, and all other tokens stay. A run of blanks
becomes one space, and there is none at the ends or after an opening parenthesis. -/

set_option autoImplicit false

namespace LessCss

open List

/-- Functions that style sheets compute later; only variables are replaced in them. -/
def deferredFunctions : List String := ["calc", "var", "env"]

namespace Tokens

/-- A group after its opening parenthesis, up to and with the closing one, and what follows. -/
def spanGroup (depth : Nat) : Tokens → Tokens × Tokens
  | [] => ([], [])
  | token :: rest =>
    if token.kind = .parenClose then
      if depth = 0 then ([token], rest)
      else
        let (group, after) := spanGroup (depth - 1) rest
        (token :: group, after)
    else
      let (group, after) := spanGroup (if token.kind = .parenOpen then depth + 1 else depth) rest
      (token :: group, after)

theorem spanGroup_append (depth : Nat) (tokens : Tokens) :
    (spanGroup depth tokens).1 ++ (spanGroup depth tokens).2 = tokens := by
  induction tokens generalizing depth with
  | nil => rfl
  | cons token rest ih =>
    unfold spanGroup
    split
    · split
      · rfl
      · simp only [cons_append, ih]
    · simp only [cons_append, ih]

theorem length_spanGroup_le (depth : Nat) (tokens : Tokens) :
    (spanGroup depth tokens).2.length ≤ tokens.length := by
  have := congrArg List.length (spanGroup_append depth tokens)
  simp only [length_append] at this
  omega

theorem length_le_cons (first : Token) (rest : Tokens) : rest.length ≤ (first :: rest).length :=
  Nat.le_succ rest.length

theorem length_spanGroup_le_cons (first : Token) (rest : Tokens) :
    (spanGroup 0 rest).2.length ≤ (first :: rest).length :=
  Nat.le_succ_of_le (length_spanGroup_le 0 rest)

/-- Whether there may be something to compute: a variable, a call of a known
function, or an operator. -/
def computes (library : Library) : Tokens → Bool
  | [] => false
  | token :: rest =>
    (match token.kind with
      | .atKeyword => true
      | .identifier => headIs rest .parenOpen && library.contains token.text
      | .other => ["+", "-", "*", "/", "~", "@", "%"].contains token.text
      | _ => false) || computes library rest

end Tokens

namespace Environment

def substitute (env : Environment) (grouped : Bool) (tokens : Tokens) : Except Error Tokens := do
  let parts ← tokens.mapM fun token =>
    if token.kind = .atKeyword then env.resolve grouped token else .ok [token]
  return parts.flatten

/-- What stands for an identifier that begins no expression. One that is called
keeps its opening parenthesis, or the whole group if it is computed later. -/
def carryIdentifier (env : Environment) (grouped : Bool) (token : Token) (tokens : Tokens) :
    Except Error (Upto tokens.length Tokens) :=
  match tokens with
  | [] => (env.interpolateToken grouped token).map fun token => .all [token] []
  | next :: rest =>
    if next.kind ≠ .parenOpen then
      (env.interpolateToken grouped token).map fun token => .all [token] (next :: rest)
    else if deferredFunctions.contains token.text.toLower then
      (env.substitute grouped (Tokens.spanGroup 0 rest).1).map fun group =>
        ⟨token :: next :: group, (Tokens.spanGroup 0 rest).2, Tokens.length_spanGroup_le_cons next rest⟩
    else
      (env.interpolateToken grouped token).map fun token =>
        ⟨[token, next], rest, Tokens.length_le_cons next rest⟩

def carry (env : Environment) (grouped : Bool) (token : Token) (tokens : Tokens) :
    Except Error (Upto tokens.length Tokens) :=
  match token.kind with
  | .atKeyword => (env.resolve grouped token).map fun value => .all value tokens
  | .identifier => env.carryIdentifier grouped token tokens
  | .string | .url =>
    (env.interpolateToken grouped token).map fun token => .all [token] tokens
  | _ => .ok (.all [token] tokens)

/-- The space in front of an item, if blanks stood there. `last` is the kind of
the token written last. -/
def gap (last : Option Kind) (tokens : Tokens) : Tokens :=
  if tokens.head?.any Token.isBlank && last.isSome && last != some .parenOpen then [Token.space]
  else []

def lastKind (last : Option Kind) (written : Tokens) : Option Kind :=
  (written.getLast?.map Token.kind).or last

def evaluateItems (env : Environment) (grouped : Bool) (last : Option Kind) (tokens : Tokens) :
    Except Error Tokens := do
  have _bound := tokens.length_trimLeft_le
  match _start : tokens.trimLeft with
  | [] => return []
  | first :: others =>
    let space := gap last tokens
    match ← env.statement grouped (first :: others) with
    | .found value rest _shorter =>
      let written := space ++ [value.toToken first]
      return written ++ (← env.evaluateItems grouped (lastKind last written) rest)
    | .absent [] _ => return space
    | .absent (token :: rest) _bounded =>
      let ⟨carried, rest, _bounded'⟩ ← env.carry grouped token rest
      let written := space ++ carried
      return written ++ (← env.evaluateItems grouped (lastKind last written) rest)
termination_by tokens.length
decreasing_by
  · rw [_start] at _bound
    simp only [length_cons] at _bound _shorter
    omega
  · rw [_start] at _bound
    simp only [length_cons] at _bound _bounded
    omega

/-- Evaluates a value. Where there is nothing to compute only the holes are filled. -/
def evaluate (env : Environment) (grouped : Bool) (tokens : Tokens) : Except Error Tokens :=
  if tokens.computes env.library then env.evaluateItems grouped none tokens
  else tokens.mapM (env.interpolateToken grouped)

def evaluateSingle (env : Environment) (grouped : Bool) (tokens : Tokens) : Except Error (Option Value) := do
  match ← env.statement grouped tokens with
  | .found value rest _ => return if rest.trimLeft.isEmpty then some value else none
  | .absent .. => return none

end Environment

end LessCss
