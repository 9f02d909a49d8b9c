import LessCss.Expression.Environment

/-! The state of a processor of values. One processor serves many values: what
it has begun for one of them it has to undo before the next one. -/

set_option autoImplicit false

namespace LessCss

structure Processor where
  /-- How many groups and calls of functions are open around the current place. -/
  parens : Nat
  /-- The variables under evaluation, the innermost one first. -/
  evaluating : List String
  deriving DecidableEq, Repr

namespace Processor

def fresh : Processor := ⟨0, []⟩

def isGrouped (processor : Processor) : Bool := processor.parens != 0

def openParen (processor : Processor) : Processor :=
  { processor with parens := processor.parens + 1 }

def closeParen (processor : Processor) : Processor :=
  { processor with parens := processor.parens - 1 }

def enter (processor : Processor) (name : String) : Processor :=
  { processor with evaluating := name :: processor.evaluating }

def leave (processor : Processor) : Processor :=
  { processor with evaluating := processor.evaluating.tail }

end Processor

abbrev Processor.Action := StateT Processor Option

/-- A computation of a processor that may fail. What it has changed stays changed
then, unless it goes on as an action that has its failure for a result. -/
abbrev Processing := ExceptT Error Processor.Action

namespace Processing

variable {α : Type}

def ofExcept : Except Error α → Processing α
  | .ok value => pure value
  | .error error => throw error

def endless : Processing α := fun _ => none

/-- Lets a name be under evaluation while a computation runs, unless it is already. -/
def guarded (name : String) (at_ : Token) (inner : Processing α) : Processing α :=
  (do
    if name ∈ (← get).evaluating then return .error (.faulty at_ (.recursiveVariable name))
    modify (·.enter name)
    let result ← inner.run
    modify Processor.leave
    return result : Processor.Action (Except Error α))

def grouped (inner : Processing α) : Processing α :=
  (do
    modify Processor.openParen
    let result ← inner.run
    modify Processor.closeParen
    return result : Processor.Action (Except Error α))

end Processing

structure Processor.Variable where
  /-- The value, if the variable holds exactly one expression. -/
  value? : (at_ : Token) → Processing (Option Value)
  /-- The evaluated tokens, without blanks around them. -/
  tokens : (at_ : Token) → Processing Tokens

structure Setting where
  library : Library
  lookup? : String → Option Processor.Variable

end LessCss
