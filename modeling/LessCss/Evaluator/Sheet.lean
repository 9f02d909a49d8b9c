import LessCss.Evaluator.Ruleset

/-! Evaluators. One evaluator serves many sheets: it begins each of them with a
new context, but keeps its processor of values. -/

set_option autoImplicit false

namespace LessCss

namespace Evaluating

variable {sheet : Sheet}

def atRule (library : Library) (keyword : Token) (params : Tokens) : Evaluating sheet Css.Stylesheet := do
  let params := if keyword.text.toLower = "@import" then Statement.stripImportOptions params else params
  return [.statement keyword.text (← process library (·.value params))]

/-- Evaluates a call outside all rulesets. It has to mean a definition, and must
not yield declarations, for which there is no rule. -/
def rootCall (library : Library) (tokens : Tokens) : Evaluating sheet Css.Stylesheet := do
  match MixinCall.read? tokens with
  | none => throw (.parse tokens.position tokens.normalized .block)
  | some call =>
    match ← callMixin library (instantiate library []) none call [] with
    | none => throw call.noDefinition
    | some output =>
      match output.declarations with
      | [] => return output.nodes
      | declaration :: _ =>
        throw (.value call.name.position call.displayName (.looseDeclaration declaration.property))

def entry (library : Library) : sheet.Entry → Evaluating sheet Css.Stylesheet
  | .ruleset id => ruleset library (instantiate library []) [] id
  | .atRule keyword params => atRule library keyword params
  | .call tokens => rootCall library tokens

def entries (library : Library) : List sheet.Entry → Evaluating sheet Css.Stylesheet
  | [] => return []
  | first :: rest => do
    let nodes ← entry library first
    return nodes ++ (← entries library rest)

def stylesheet (library : Library) (sheet : Sheet) : Evaluating sheet Css.Stylesheet := do
  let nodes ← entries library sheet.entries
  let extensions := (← get).context.extensions
  take .takeExtensions
  if extensions.isEmpty then return nodes
  else
    report .debug ("应用 " ++ toString extensions.length ++ " 条扩展指令")
    ofLogged (Extension.propagate extensions nodes)

end Evaluating

structure Evaluator where
  library : Library
  processor : Processor
  /-- The sheet evaluated last, with the context that it was left in. -/
  sheet : Sheet
  context : Context sheet

namespace Evaluator

def new (library : Library) : Evaluator := ⟨library, .fresh, .empty, .start⟩

/-- The run that evaluates a sheet, and its result. There is none if it does not end. -/
def run (evaluator : Evaluator) (sheet : Sheet) : Option (Except Error Css.Stylesheet × Run sheet) :=
  (Evaluating.stylesheet evaluator.library sheet).run.run (.start evaluator.processor)

def evaluate (evaluator : Evaluator) (sheet : Sheet) : Option (Except Error Css.Stylesheet × Evaluator) :=
  (evaluator.run sheet).map fun (result, run) =>
    (result, ⟨evaluator.library, run.processor, sheet, run.context⟩)

def evaluateAll (evaluator : Evaluator) : List Sheet → Option (List (Except Error Css.Stylesheet) × Evaluator)
  | [] => some ([], evaluator)
  | sheet :: rest => do
    let (result, evaluator) ← evaluator.evaluate sheet
    let (results, evaluator) ← evaluator.evaluateAll rest
    return (result :: results, evaluator)

end Evaluator

end LessCss
