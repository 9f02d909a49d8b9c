import LessCss.Evaluation.Ruleset

/-! Evaluation of a whole sheet to a flat style sheet. -/

set_option autoImplicit false

namespace LessCss.Evaluation

variable {sheet : Sheet}

def evaluateAtRule (library : Library) (scope : Scope) (keyword : Token) (params : Tokens) :
    Except Error Yield := do
  let params := if keyword.text.toLower = "@import" then Statement.stripImportOptions params else params
  let params ← scope.evaluate library params
  return ⟨⟨[], [.statement keyword.text params]⟩, []⟩

/-- Evaluates a call outside all rulesets. It has to mean a definition, and must
not yield declarations, for which there is no rule. -/
def evaluateRootCall (library : Library) (frame : Frame sheet) (tokens : Tokens) :
    Logged (Frame sheet × Yield) := do
  match MixinCall.read? tokens with
  | none => throw (.parse tokens.position tokens.normalized .block)
  | some call =>
    match ← evaluateCall library (fun stack _ => expand library stack) [] call [] frame rfl with
    | none => throw call.noDefinition
    | some progress =>
      match progress.yield.declarations with
      | [] => return (progress.after, progress.yield)
      | declaration :: _ =>
        throw (.value call.name.position call.displayName (.looseDeclaration declaration.property))

def evaluateEntry (library : Library) (frame : Frame sheet) : sheet.Entry → Logged (Frame sheet × Yield)
  | .ruleset id => do
    return (frame, ← evaluateRuleset library (fun stack _ => expand library stack) [frame] rfl [] id)
  | .atRule keyword params => do
    return (frame, ← Logged.ofExcept (evaluateAtRule library (Stack.scope [frame]) keyword params))
  | .call tokens => evaluateRootCall library frame tokens

def evaluateEntries (library : Library) (frame : Frame sheet) : List sheet.Entry → Logged Yield
  | [] => return .empty
  | entry :: rest => do
    let (after, first) ← evaluateEntry library frame entry
    return first ++ (← evaluateEntries library after rest)

end LessCss.Evaluation

namespace LessCss

def Sheet.evaluate (library : Library) (sheet : Sheet) : Logged Css.Stylesheet := do
  let yield ← Evaluation.evaluateEntries library .root sheet.entries
  if yield.extensions.isEmpty then return yield.nodes
  else
    Logged.report .debug ("应用 " ++ toString yield.extensions.length ++ " 条扩展指令")
    Extension.propagate yield.extensions yield.nodes

end LessCss
