import LessCss.Evaluation.Ruleset
import LessCss.Evaluator.Run
import LessCss.Proofs.Processor.Values

/-! In a scope, a processor that has not begun anything gives the results of the
scope, for values, conditions and the parts that only need those. -/

set_option autoImplicit false

namespace LessCss.Scope

open Processing (Keeps keeps_pure keeps_throw keeps_ite keeps_mapM)

variable (library : Library) (scope : Scope)

theorem keeps_value (tokens : Tokens) :
    Keeps ((scope.setting library).value tokens) .fresh (scope.evaluate library tokens) :=
  (handles_setting library scope []).value 0 tokens

theorem keeps_holds (condition : Tokens) :
    Keeps ((scope.setting library).holds condition) .fresh (scope.holds library condition) :=
  (handles_setting library scope []).holds 0 condition

theorem keeps_interpolateTokens (tokens : Tokens) :
    Keeps ((scope.setting library).interpolateTokens tokens) .fresh
      (scope.interpolateTokens library tokens) :=
  (handles_setting library scope []).interpolateTokens 0 tokens

theorem keeps_anyM_holds (conditions : List Tokens) :
    Keeps (conditions.anyM (scope.setting library).holds) .fresh
      (conditions.anyM (scope.holds library)) := by
  induction conditions with
  | nil => exact keeps_pure false
  | cons condition rest ih =>
    refine (keeps_holds library scope condition).bind fun holds => ?_
    cases holds with
    | true => exact keeps_pure true
    | false => exact ih

theorem keeps_holdsAny (conditions : List Tokens) :
    Keeps ((scope.setting library).holdsAny conditions) .fresh
      (scope.holdsAny library conditions) :=
  keeps_ite (fun _ => keeps_pure true) fun _ => keeps_anyM_holds library scope conditions

theorem keeps_evaluateVars (vars : Variables) :
    Keeps ((scope.setting library).evaluateVars vars) .fresh
      (Evaluation.evaluateVariables library scope vars) := by
  refine (keeps_mapM vars.entries fun entry => ?_).bind fun entries => keeps_pure _
  exact (keeps_value library scope entry.2).bind fun value => keeps_pure _

theorem keeps_evaluateCall (call : MixinCall) :
    Keeps ((scope.setting library).evaluateCall call) .fresh
      (Evaluation.evaluateArguments library scope call) := by
  refine (keeps_mapM call.arguments (keeps_value library scope)).bind fun arguments => ?_
  exact (keeps_evaluateVars library scope call.named).bind fun named => keeps_pure _

theorem keeps_declaration (property value : Tokens) :
    Keeps ((scope.setting library).declaration property value) .fresh
      (Evaluation.evaluateDeclaration library scope property value) := by
  refine (keeps_interpolateTokens library scope property).bind fun property => ?_
  exact (keeps_value library scope (Statement.stripImportant value).1).bind
    fun value => keeps_pure _

theorem keeps_asDeclaration (tokens : Tokens) (reason : Error) :
    Keeps ((scope.setting library).asDeclaration tokens reason) .fresh
      (Evaluation.evaluateAsDeclaration library scope tokens reason) := by
  rw [Setting.asDeclaration, Evaluation.evaluateAsDeclaration]
  cases Statement.declaration? tokens with
  | none => exact keeps_throw reason
  | some parts => exact keeps_declaration library scope parts.1 parts.2

end LessCss.Scope
