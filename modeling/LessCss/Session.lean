import LessCss.Compile
import LessCss.Evaluator.Sheet

/-! Sessions: texts compiled one after the other with one evaluator, whose
library may be exchanged in between for the built-in one. -/

set_option autoImplicit false

namespace LessCss.Session

inductive Request where
  | compile (text : String)
  | restoreLibrary

inductive Response where
  | compiled (result : Except Error String)
  | libraryRestored

def serve (minify : Bool) (evaluator : Evaluator) : Request → Option (Response × Evaluator)
  | .compile text =>
    match (Sheet.read defaultSourceName text).outcome.1 with
    | .error error => some (.compiled (.error error), evaluator)
    | .ok sheet =>
      (evaluator.evaluate sheet).map fun (result, evaluator) =>
        (.compiled (result.map (Css.print minify)), evaluator)
  | .restoreLibrary => some (.libraryRestored, { evaluator with library := .builtin })

def run (minify : Bool) (evaluator : Evaluator) : List Request → Option (List Response)
  | [] => some []
  | request :: rest => do
    let (response, evaluator) ← serve minify evaluator request
    return response :: (← run minify evaluator rest)

end LessCss.Session
