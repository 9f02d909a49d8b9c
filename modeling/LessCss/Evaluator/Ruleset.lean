import LessCss.Evaluation.Candidate
import LessCss.Evaluation.Yield
import LessCss.Evaluator.Run

/-! Evaluation of statements, rulesets and calls in the context of a run. A frame
is popped where it was pushed, whether the part in between has failed or not.

The context knows which definitions are under expansion. If it had lost one of
them, that definition would be expanded without an end. -/

set_option autoImplicit false

namespace LessCss.Evaluating

variable {sheet : Sheet}

def matchGuard (library : Library) (id : sheet.Id) (arguments : Variables)
    (captured : List (Captured sheet)) : Evaluating sheet Bool :=
  framed (.ofGuard id arguments captured)
    (process library (·.holdsAny (sheet.ruleset id).selector.conditions))

def holdsGuard (library : Library) (id : sheet.Id) (arguments : Variables)
    (captured : List (Captured sheet)) : Evaluating sheet Bool :=
  if (sheet.ruleset id).selector.isGuarded then matchGuard library id arguments captured
  else pure true

def candidate? (library : Library) (call : MixinCall) (id : sheet.Id)
    (captured : List (Captured sheet)) : Evaluating sheet (Option (Candidate sheet)) := do
  let selector := (sheet.ruleset id).selector
  match call.bind? selector with
  | none =>
    report .trace (call.displayName ++ " 的实参与定义 " ++ selector.tokens.text ++ " 不匹配")
    return none
  | some arguments =>
    if ← holdsGuard library id arguments captured then
      return some ⟨id, arguments, captured, selector.isGuarded⟩
    else
      report .trace (selector.tokens.text ++ " 的守卫不成立")
      return none

def candidatesOf (library : Library) (call : MixinCall) :
    List (sheet.Id × List (Captured sheet)) → Evaluating sheet (List (Candidate sheet))
  | [] => return []
  | (id, captured) :: rest => do
    let first ← candidate? library call id captured
    return first.toList ++ (← candidatesOf library call rest)

def candidates (library : Library) (caller : Option sheet.Id) (call : MixinCall) :
    Evaluating sheet (List (Candidate sheet)) := do
  let found ← candidatesOf library call ((← get).context.stack.definitions caller call)
  report .debug ("mixin " ++ call.displayName ++ " 匹配到 " ++ toString found.length ++ " 个定义")
  return if found.any Candidate.guarded then found.filter Candidate.guarded else found

def addExtensions (library : Library) (selector : Tokens) : List Extend → Evaluating sheet Unit
  | [] => return
  | directive :: rest => do
    let target ← process library (·.interpolateTokens directive.target)
    take (.addExtension ⟨target, selector, directive.all⟩)
    addExtensions library selector rest

def addClosures : List sheet.Id → Evaluating sheet Unit
  | [] => return
  | id :: rest =>
    if (sheet.ruleset id).isMixin then do
      take (.addClosure ⟨id, (← get).context.stack.capture id⟩)
      addClosures rest
    else addClosures rest

abbrev Instantiate (sheet : Sheet) := MixinCall → Tokens → Candidate sheet → Evaluating sheet Output

def instantiateAll (instantiate : Instantiate sheet) (call : MixinCall) (selector : Tokens) :
    List (Candidate sheet) → Evaluating sheet Output
  | [] => return .empty
  | candidate :: rest => do
    let first ← instantiate call selector candidate
    return first ++ (← instantiateAll instantiate call selector rest)

/-- Evaluates a call from a ruleset, or from outside of all rulesets. There is
no result if the call means no definition. -/
def callMixin (library : Library) (instantiate : Instantiate sheet) (caller : Option sheet.Id)
    (call : MixinCall) (selector : Tokens) : Evaluating sheet (Option Output) := do
  let call ← process library (·.evaluateCall call)
  let candidates ← candidates library caller call
  if candidates.isEmpty then
    report .debug ("没有与 " ++ call.displayName ++ " 匹配的 mixin 定义")
    return none
  else
    let output ← instantiateAll instantiate call selector candidates
    return some (output.markImportant call.important)

/-- Evaluates one statement: an at-statement is ignored, then directives, calls
and declarations are tried in this order. -/
def statement (library : Library) (instantiate : Instantiate sheet) (id : sheet.Id)
    (selector tokens : Tokens) : Evaluating sheet Output := do
  if tokens.headIs .atKeyword then
    report .warn (tokens.position.text ++ " 忽略规则集内部的 at 语句 " ++ tokens.normalized)
    return .empty
  else
    match Statement.extends? tokens with
    | some directives =>
      addExtensions library selector directives
      return .empty
    | none =>
      match MixinCall.read? tokens with
      | some call =>
        match ← callMixin library instantiate (some id) call selector with
        | some output => return output
        | none =>
          let declaration ← process library (·.asDeclaration tokens call.noDefinition)
          return ⟨[declaration], []⟩
      | none =>
        let declaration ← process library (·.asDeclaration tokens
          (.parse tokens.position tokens.normalized .statement))
        return ⟨[declaration], []⟩

def statements (library : Library) (instantiate : Instantiate sheet) (id : sheet.Id)
    (selector : Tokens) : List Tokens → Evaluating sheet Output
  | [] => return .empty
  | tokens :: rest => do
    let first ← statement library instantiate id selector tokens
    return first ++ (← statements library instantiate id selector rest)

/-- Evaluates a ruleset under the selector around it. A definition with a
parameter list puts out nothing by itself. -/
def ruleset (library : Library) (instantiate : Instantiate sheet) (around : Tokens) (id : sheet.Id) :
    Evaluating sheet Css.Stylesheet :=
  let ruleset := sheet.ruleset id
  if ruleset.isMixin then pure []
  else framed (.ofRuleset id) do
    match ruleset.kind with
    | .plain =>
      if ← process library (·.holdsAny ruleset.selector.conditions) then
        let own ← process library (·.interpolateTokens ruleset.selector.tokens)
        let selector := Selector.nest around own
        addExtensions library selector ruleset.selector.extensions
        let output ← statements library instantiate id selector ruleset.statements
        let inner ← (sheet.nested id).mapM fun child =>
          Evaluating.ruleset library instantiate selector child.val
        return .rule selector output.declarations :: output.nodes ++ inner.flatten
      else
        report .trace ("守卫不成立，跳过 " ++ ruleset.selector.tokens.normalized)
        return []
    | .atBlock keyword params bubbles =>
      let params ← process library (·.value params)
      let selector := if bubbles then around else []
      let output ← statements library instantiate id selector ruleset.statements
      let inner ← (sheet.nested id).mapM fun child =>
        Evaluating.ruleset library instantiate selector child.val
      let nodes := output.nodes ++ inner.flatten
      let block :=
        if selector.isEmpty then Css.Node.block keyword.text params output.declarations nodes
        else if output.declarations.isEmpty then .block keyword.text params [] nodes
        else .block keyword.text params [] (.rule selector output.declarations :: nodes)
      return [block]
termination_by sheet.rulesets.size - id.val
decreasing_by
  all_goals
    have after : id.val < child.val.val := child.property
    have := child.val.isLt
    omega

def expand (library : Library) (instantiate : Instantiate sheet) (selector : Tokens) (id : sheet.Id) :
    Evaluating sheet (Output × Variables) := do
  let output ← statements library instantiate id selector (sheet.ruleset id).statements
  let inner ← (sheet.nested id).mapM fun child => ruleset library instantiate selector child.val
  addClosures ((sheet.nested id).map Subtype.val)
  let locals ← process library (·.evaluateVars (sheet.ruleset id).vars)
  return (output ++ ⟨[], inner.flatten⟩, locals)

/-- Expands a definition inside those of `active`, unless it is under expansion
already, and hands what it leaves behind to the frame that has made the call. -/
def instantiate (library : Library) (active : List sheet.Id) (call : MixinCall) (selector : Tokens)
    (candidate : Candidate sheet) : Evaluating sheet Output := do
  take (.attempt call candidate.ruleset)
  if (← get).context.stack.isActive candidate.ruleset then
    throw (.cyclicMixin call.name.position call.displayName)
  -- The stack has one of `active` as long as the frame of its expansion is there.
  else if _fresh : candidate.ruleset ∈ active then endless
  else
    report .trace ("展开 mixin " ++ call.displayName)
    let (output, locals) ← framed (.ofCall candidate.ruleset candidate.arguments candidate.captured)
      (expand library (fun call selector inner =>
        instantiate library (candidate.ruleset :: active) call selector inner) selector
        candidate.ruleset)
    take .saveClosures
    take (.addReturned locals)
    return output
termination_by Stack.idle active
decreasing_by exact Stack.idle_cons_lt _fresh

end LessCss.Evaluating
