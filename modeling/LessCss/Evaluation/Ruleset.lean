import LessCss.Evaluation.Candidate
import LessCss.Evaluation.Statement
import LessCss.Evaluation.Yield

/-! Evaluation of statements, rulesets and calls.

A definition must not be expanded while it is under expansion. So each
expansion has fewer definitions left for the calls inside it, and evaluation
ends. The functions on statements and rulesets take as an argument how a
definition is expanded, for stacks with the same calls. -/

set_option autoImplicit false

namespace LessCss.Evaluation

variable {sheet : Sheet}

structure Expansion (sheet : Sheet) where
  yield : Yield
  closures : List (Closure sheet)
  locals : Variables

abbrev Expand (sheet : Sheet) (calls : List sheet.Id) :=
  (stack : Stack sheet) → stack.calls = calls → MixinCall → Candidate sheet → Tokens →
    Logged (Expansion sheet)

/-- What a frame has become, and what it has put out on the way. -/
structure Progress (frame : Frame sheet) where
  after : Frame sheet
  kept : after.callee? = frame.callee?
  yield : Yield

def Progress.still (frame : Frame sheet) (yield : Yield) : Progress frame := ⟨frame, rfl, yield⟩

theorem calls_after {frame : Frame sheet} {outer : Stack sheet} {calls : List sheet.Id}
    (progress : Progress frame) (same : Stack.calls (frame :: outer) = calls) :
    Stack.calls (progress.after :: outer) = calls := by
  rw [← same]
  simp only [Stack.calls, List.filterMap_cons, progress.kept]

def evaluateVariables (library : Library) (scope : Scope) (vars : Variables) : Except Error Variables := do
  let entries ← vars.entries.mapM fun (name, value) => do
    return (name, ← scope.evaluate library value)
  return ⟨entries⟩

def evaluateArguments (library : Library) (scope : Scope) (call : MixinCall) : Except Error MixinCall := do
  let arguments ← call.arguments.mapM (scope.evaluate library)
  let named ← evaluateVariables library scope call.named
  return { call with arguments, named }

def evaluateDeclaration (library : Library) (scope : Scope) (property value : Tokens) :
    Except Error Css.Declaration := do
  let property ← scope.interpolateTokens library property
  let (value, important) := Statement.stripImportant value
  return ⟨property.text, ← scope.evaluate library value, important⟩

def evaluateExtends (library : Library) (scope : Scope) (selector : Tokens)
    (directives : List Extend) : Except Error (List Extension) :=
  directives.mapM fun directive => do
    return ⟨← scope.interpolateTokens library directive.target, selector, directive.all⟩

/-- Expands candidates one after the other. Each one sees what those before it have left. -/
def expandAll {calls : List sheet.Id} (expand : Expand sheet calls) (outer : Stack sheet)
    (call : MixinCall) (selector : Tokens) (frame : Frame sheet)
    (same : Stack.calls (frame :: outer) = calls) :
    List (Candidate sheet) → Logged (Progress frame)
  | [] => return .still frame .empty
  | candidate :: rest => do
    let expansion ← expand (frame :: outer) same call candidate selector
    let next := (frame.addClosures expansion.closures).addReturned expansion.locals
    let ⟨after, kept, yield⟩ ← expandAll expand outer call selector next same rest
    return ⟨after, kept, expansion.yield ++ yield⟩

/-- Evaluates a call from a ruleset, or from outside of all rulesets. There is
no result if the call means no definition. -/
def evaluateCall {calls : List sheet.Id} (library : Library) (expand : Expand sheet calls)
    (outer : Stack sheet) (call : MixinCall) (selector : Tokens) (frame : Frame sheet)
    (same : Stack.calls (frame :: outer) = calls) : Logged (Option (Progress frame)) := do
  let stack : Stack sheet := frame :: outer
  let call ← Logged.ofExcept (evaluateArguments library stack.scope call)
  let candidates ← stack.candidates library frame.ruleset call
  if candidates.isEmpty then
    Logged.report .debug ("没有与 " ++ call.displayName ++ " 匹配的 mixin 定义")
    return none
  else
    let ⟨after, kept, yield⟩ ← expandAll expand outer call selector frame same candidates
    return some ⟨after, kept, yield.markImportant call.important⟩

def evaluateAsDeclaration (library : Library) (scope : Scope) (tokens : Tokens) (reason : Error) :
    Except Error Css.Declaration :=
  match Statement.declaration? tokens with
  | none => .error reason
  | some (property, value) => evaluateDeclaration library scope property value

/-- Evaluates one statement: an at-statement is ignored, then directives, calls
and declarations are tried in this order. -/
def evaluateStatement {calls : List sheet.Id} (library : Library) (expand : Expand sheet calls)
    (outer : Stack sheet) (selector : Tokens) (frame : Frame sheet)
    (same : Stack.calls (frame :: outer) = calls) (tokens : Tokens) : Logged (Progress frame) := do
  let scope := Stack.scope (frame :: outer)
  if tokens.headIs .atKeyword then
    Logged.report .warn (tokens.position.text ++ " 忽略规则集内部的 at 语句 " ++ tokens.normalized)
    return .still frame .empty
  else
    match Statement.extends? tokens with
    | some directives =>
      let extensions ← Logged.ofExcept (evaluateExtends library scope selector directives)
      return .still frame (.ofExtensions extensions)
    | none =>
      match MixinCall.read? tokens with
      | some call =>
        match ← evaluateCall library expand outer call selector frame same with
        | some progress => return progress
        | none =>
          let declaration ← Logged.ofExcept
            (evaluateAsDeclaration library scope tokens call.noDefinition)
          return .still frame (.ofDeclaration declaration)
      | none =>
        let declaration ← Logged.ofExcept (evaluateAsDeclaration library scope tokens
          (.parse tokens.position tokens.normalized .statement))
        return .still frame (.ofDeclaration declaration)

def evaluateStatements {calls : List sheet.Id} (library : Library) (expand : Expand sheet calls)
    (outer : Stack sheet) (selector : Tokens) (frame : Frame sheet)
    (same : Stack.calls (frame :: outer) = calls) : List Tokens → Logged (Progress frame)
  | [] => return .still frame .empty
  | tokens :: rest => do
    let first ← evaluateStatement library expand outer selector frame same tokens
    let ⟨after, kept, yield⟩ ← evaluateStatements library expand outer selector first.after
      (calls_after first same) rest
    return ⟨after, kept.trans first.kept, first.yield ++ yield⟩

/-- Evaluates a ruleset under the selector around it. A definition with a
parameter list puts out nothing by itself. -/
def evaluateRuleset {calls : List sheet.Id} (library : Library) (expand : Expand sheet calls)
    (outer : Stack sheet) (same : outer.calls = calls) (around : Tokens) (id : sheet.Id) :
    Logged Yield := do
  let ruleset := sheet.ruleset id
  if ruleset.isMixin then return .empty
  let frame : Frame sheet := .ofRuleset id
  let scope := Stack.scope (frame :: outer)
  match ruleset.kind with
  | .plain =>
    if ← Logged.ofExcept (scope.holdsAny library ruleset.selector.conditions) then
      let own ← Logged.ofExcept (scope.interpolateTokens library ruleset.selector.tokens)
      let selector := Selector.nest around own
      let extensions ← Logged.ofExcept
        (evaluateExtends library scope selector ruleset.selector.extensions)
      let progress ← evaluateStatements library expand outer selector frame same ruleset.statements
      let nested ← (sheet.nested id).mapM fun child =>
        evaluateRuleset library expand (progress.after :: outer) (calls_after progress same)
          selector child.val
      let inner := Yield.concat nested
      let rule := Css.Node.rule selector progress.yield.declarations
      return ⟨⟨[], rule :: progress.yield.nodes ++ inner.nodes⟩,
        extensions ++ progress.yield.extensions ++ inner.extensions⟩
    else
      Logged.report .trace ("守卫不成立，跳过 " ++ ruleset.selector.tokens.normalized)
      return .empty
  | .atBlock keyword params bubbles =>
    let params ← Logged.ofExcept (scope.evaluate library params)
    let selector := if bubbles then around else []
    let progress ← evaluateStatements library expand outer selector frame same ruleset.statements
    let nested ← (sheet.nested id).mapM fun child =>
      evaluateRuleset library expand (progress.after :: outer) (calls_after progress same)
        selector child.val
    let inner := Yield.concat nested
    let nodes := progress.yield.nodes ++ inner.nodes
    let declarations := progress.yield.declarations
    let block :=
      if selector.isEmpty then Css.Node.block keyword.text params declarations nodes
      else if declarations.isEmpty then .block keyword.text params [] nodes
      else .block keyword.text params [] (.rule selector declarations :: nodes)
    return ⟨⟨[], [block]⟩, progress.yield.extensions ++ inner.extensions⟩
termination_by sheet.rulesets.size - id.val
decreasing_by
  all_goals
    have after : id.val < child.val.val := child.property
    have := child.val.isLt
    omega

/-- The closures that the expansion of a definition leaves to its caller: one
for each definition with a parameter list that is nested in it. -/
def closuresIn (stack : Stack sheet) (id : sheet.Id) : List (Closure sheet) :=
  ((sheet.nested id).filter fun child => (sheet.ruleset child.val).isMixin).map fun child =>
    ⟨child.val, stack.capture child.val⟩

def expandBody {calls : List sheet.Id} (library : Library) (expand : Expand sheet calls)
    (outer : Stack sheet) (selector : Tokens) (id : sheet.Id) (frame : Frame sheet)
    (same : Stack.calls (frame :: outer) = calls) : Logged (Expansion sheet) := do
  let ruleset := sheet.ruleset id
  let progress ← evaluateStatements library expand outer selector frame same ruleset.statements
  let stack := progress.after :: outer
  let nested ← (sheet.nested id).mapM fun child =>
    evaluateRuleset library expand stack (calls_after progress same) selector child.val
  let locals ← Logged.ofExcept (evaluateVariables library (Stack.scope stack) ruleset.vars)
  return ⟨progress.yield ++ Yield.concat nested, closuresIn stack id, locals⟩

/-- Expands a definition that a call means, unless it is under expansion already. -/
def expand (library : Library) (stack : Stack sheet) (call : MixinCall)
    (candidate : Candidate sheet) (selector : Tokens) : Logged (Expansion sheet) := do
  if _active : candidate.ruleset ∈ stack.calls then
    throw (.cyclicMixin call.name.position call.displayName)
  else
    Logged.report .trace ("展开 mixin " ++ call.displayName)
    let frame := Frame.ofCall candidate.ruleset candidate.arguments candidate.captured
    expandBody library (fun inner _same => expand library inner) stack selector candidate.ruleset
      frame rfl
termination_by Stack.idle stack.calls
decreasing_by
  rw [_same]
  exact Stack.idle_cons_lt _active

end LessCss.Evaluation
