import LessCss.Expression.Scope
import LessCss.Processor.Reader

/-! Evaluation of whole values and of conditions in place. The processor remembers
the variables that it is evaluating, and refuses one that comes up again.

In a scope, a name means a variable inside other variables. A processor that
had forgotten one of those would evaluate it without an end. -/

set_option autoImplicit false

namespace LessCss

namespace Setting

def substitute (setting : Setting) (tokens : Tokens) : Processing Tokens := do
  let parts ← tokens.mapM fun token =>
    if token.kind = .atKeyword then setting.resolve token else pure [token]
  return parts.flatten

def carryIdentifier (setting : Setting) (token : Token) (tokens : Tokens) :
    Processing (Upto tokens.length Tokens) :=
  match tokens with
  | [] => do return .all [← setting.interpolateToken token] []
  | next :: rest =>
    if next.kind ≠ .parenOpen then do return .all [← setting.interpolateToken token] (next :: rest)
    else if deferredFunctions.contains token.text.toLower then do
      let group ← setting.substitute (Tokens.spanGroup 0 rest).1
      return ⟨token :: next :: group, (Tokens.spanGroup 0 rest).2,
        Tokens.length_spanGroup_le_cons next rest⟩
    else do return ⟨[← setting.interpolateToken token, next], rest, Tokens.length_le_cons next rest⟩

def carry (setting : Setting) (token : Token) (tokens : Tokens) : Processing (Upto tokens.length Tokens) := do
  match token.kind with
  | .atKeyword => return .all (← setting.resolve token) tokens
  | .identifier => setting.carryIdentifier token tokens
  | .string | .url => return .all [← setting.interpolateToken token] tokens
  | _ => return .all [token] tokens

def items (setting : Setting) (last : Option Kind) (tokens : Tokens) : Processing Tokens := do
  match _start : tokens.trimLeft with
  | [] => return []
  | first :: others =>
    have _shorter := tokens.length_lt_of_trimLeft _start
    let space := Environment.gap last tokens
    match ← setting.statement (first :: others) with
    | .found value rest _shorter' =>
      let written := space ++ [value.toToken first]
      return written ++ (← setting.items (Environment.lastKind last written) rest)
    | .absent [] _ => return space
    | .absent (token :: rest) _bounded =>
      let carried ← setting.carry token rest
      let written := space ++ carried.result
      return written ++ (← setting.items (Environment.lastKind last written) carried.rest)
termination_by tokens.length
decreasing_by
  · simp only [List.length_cons] at _shorter'
    omega
  · have := carried.bounded
    simp only [List.length_cons] at _bounded
    omega

/-- Evaluates a value. Where there is nothing to compute only the holes are filled. -/
def value (setting : Setting) (tokens : Tokens) : Processing Tokens :=
  if tokens.computes setting.library then setting.items none tokens
  else tokens.mapM setting.interpolateToken

def interpolateTokens (setting : Setting) (tokens : Tokens) : Processing Tokens :=
  tokens.mapM setting.interpolateToken

def conjunctStart (tokens : Tokens) : Tokens :=
  if tokens.trimLeft.headText? == some "not" then Tokens.trimLeft tokens.trimLeft.tail
  else tokens.trimLeft

theorem length_conjunctStart_le (tokens : Tokens) : (conjunctStart tokens).length ≤ tokens.length := by
  have := tokens.length_trimLeft_le
  have := Tokens.length_trimLeft_le tokens.trimLeft.tail
  simp only [List.length_tail] at this
  unfold conjunctStart
  split <;> omega

def conjunct (setting : Setting) (at_ : Token) (tokens : Tokens) : Processing (Upto tokens.length Bool) := do
  let negated := tokens.trimLeft.headText? == some "not"
  let found := (conjunctStart tokens).head?.getD at_
  match ← setting.statement (conjunctStart tokens) with
  | .found (.boolean holds) rest shorter =>
    return .widen (Nat.le_trans (Nat.le_of_lt shorter) (length_conjunctStart_le tokens))
      (.all (holds != negated) rest)
  | .found value _ _ => throw (.faulty found (.notBoolean value.kind))
  | .absent .. => throw (.unexpected found .condition)

def conjunction (setting : Setting) (at_ : Token) (tokens : Tokens) : Processing Bool := do
  let read ← setting.conjunct at_ tokens
  if !read.result then return false
  else
    match _start : read.rest.trimLeft with
    | [] => return true
    | token :: after =>
      if token.text == "and" then setting.conjunction at_ after
      else throw (.unexpected token .conjunction)
termination_by tokens.length
decreasing_by
  exact Nat.lt_of_lt_of_le (Tokens.length_lt_of_trimLeft _ _start) read.bounded

def holds (setting : Setting) (condition : Tokens) : Processing Bool :=
  let tokens := condition.trim
  setting.conjunction (tokens.head?.getD (.synthetic .eos "")) tokens

end Setting

def Reading.whole? {n : Nat} : Reading n → Option Value
  | .found value rest _ => if rest.trimLeft.isEmpty then some value else none
  | .absent .. => none

namespace Processor.Variable

/-- A variable with these tokens. Its name is under evaluation meanwhile. -/
def ofTokens (setting : Setting) (name : String) (tokens : Tokens) : Variable where
  value? at_ := do return (← Processing.guarded name at_ (setting.statement tokens)).whole?
  tokens at_ := do return (← Processing.guarded name at_ (setting.value tokens)).trim

def endless (name : String) : Variable where
  value? at_ := .guarded name at_ .endless
  tokens at_ := .guarded name at_ .endless

end Processor.Variable

namespace Scope

def lookup? (library : Library) (scope : Scope) (active : List String) (name : String) :
    Option Processor.Variable :=
  match _found : scope.find? name with
  | none => none
  | some tokens =>
    -- The processor refuses the variable, unless it has forgotten the name.
    if _fresh : name ∈ active then some (.endless name)
    else some (.ofTokens ⟨library, fun key => lookup? library scope (name :: active) key⟩ name tokens)
termination_by scope.idle active
decreasing_by exact idle_cons_lt (mem_names_of_find? _found) _fresh

def setting (library : Library) (scope : Scope) : Setting := ⟨library, scope.lookup? library []⟩

end Scope

end LessCss
