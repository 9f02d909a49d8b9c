import LessCss.Evaluation.Frame
import LessCss.Log
import LessCss.Mixin

/-! Which definitions a call means. The search goes outwards from the place of
the call and stops at the first level that has definitions with the called
name. Of those, the ones remain whose parameters fit and whose guards hold; if
a guarded one is left, those without a guard are left out. -/

set_option autoImplicit false

namespace LessCss

/-- Whether one of the conditions holds; no condition always does. -/
def Scope.holdsAny (library : Library) (scope : Scope) (conditions : List Tokens) : Except Error Bool :=
  if conditions.isEmpty then .ok true else conditions.anyM (scope.holds library)

def MixinCall.noDefinition (call : MixinCall) : Error :=
  .value call.name.position call.displayName .noDefinition

structure Candidate (sheet : Sheet) where
  ruleset : sheet.Id
  arguments : Variables
  captured : List (Captured sheet)
  guarded : Bool

namespace Sheet

def definitions (sheet : Sheet) (call : MixinCall) (offset : Nat) (id : sheet.Id) : List sheet.Id :=
  match call.walk (sheet.ruleset id).selector.tokens offset with
  | none => []
  | some reached =>
    if reached = call.path.length then [id]
    else (sheet.nested id).flatMap fun child => sheet.definitions call reached child.val
termination_by sheet.rulesets.size - id.val
decreasing_by
  have after : id.val < child.val.val := child.property
  have := child.val.isLt
  omega

/-- A level of the search: a ruleset or the outside of all rulesets, and the
ruleset inside it from which the search comes, unless that one is a mixin. -/
structure Level (sheet : Sheet) where
  scope : Option sheet.Id
  searched : Option sheet.Id

def levels (sheet : Sheet) (caller : Option sheet.Id) : List (Level sheet) :=
  match caller with
  | none => [⟨none, none⟩]
  | some id =>
    let chain := id :: sheet.ancestors id
    let searched := chain.map fun inner =>
      if (sheet.ruleset inner).isMixin then none else some inner
    List.zipWith Level.mk (chain.map some ++ [none]) (none :: searched)

end Sheet

namespace Stack

variable {sheet : Sheet}

/-- The definitions that a level offers: nested rulesets, then closures. -/
def definitionsAt (stack : Stack sheet) (call : MixinCall) (level : sheet.Level) :
    List (sheet.Id × List (Captured sheet)) :=
  let nested :=
    match level.scope with
    | some id => (sheet.nested id).map Subtype.val
    | none => sheet.roots
  let own := nested.filter fun id => some id != level.searched
  own.flatMap (fun id => (sheet.definitions call 0 id).map fun found => (found, [])) ++
    (stack.closuresOf level.scope).flatMap fun closure =>
      (sheet.definitions call 0 closure.ruleset).map fun found => (found, closure.captured)

/-- The definitions of the innermost level that offers any. -/
def definitions (stack : Stack sheet) (caller : Option sheet.Id) (call : MixinCall) :
    List (sheet.Id × List (Captured sheet)) :=
  ((sheet.levels caller).map (stack.definitionsAt call)).find? (fun found => !found.isEmpty)
    |>.getD []

def candidate? (library : Library) (stack : Stack sheet) (call : MixinCall) (id : sheet.Id)
    (captured : List (Captured sheet)) : Logged (Option (Candidate sheet)) := do
  let selector := (sheet.ruleset id).selector
  match call.bind? selector with
  | none =>
    Logged.report .trace (call.displayName ++ " 的实参与定义 " ++ selector.tokens.text ++ " 不匹配")
    return none
  | some arguments =>
    let scope := Stack.scope (Frame.ofGuard id arguments captured :: stack)
    if ← Logged.ofExcept (scope.holdsAny library selector.conditions) then
      return some ⟨id, arguments, captured, selector.isGuarded⟩
    else
      Logged.report .trace (selector.tokens.text ++ " 的守卫不成立")
      return none

def candidatesOf (library : Library) (stack : Stack sheet) (call : MixinCall) :
    List (sheet.Id × List (Captured sheet)) → Logged (List (Candidate sheet))
  | [] => return []
  | (id, captured) :: rest => do
    let first ← stack.candidate? library call id captured
    return first.toList ++ (← candidatesOf library stack call rest)

def candidates (library : Library) (stack : Stack sheet) (caller : Option sheet.Id)
    (call : MixinCall) : Logged (List (Candidate sheet)) := do
  let found ← stack.candidatesOf library call (stack.definitions caller call)
  Logged.report .debug ("mixin " ++ call.displayName ++ " 匹配到 " ++ toString found.length ++ " 个定义")
  return if found.any Candidate.guarded then found.filter Candidate.guarded else found

end Stack

end LessCss
