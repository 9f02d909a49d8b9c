import LessCss.Evaluator.Sheet
import LessCss.Proofs.Processor.Keeps
import LessCss.Proofs.Yields

/-! Invariants of runs: which steps a run may take, and what it means that these steps
keep an invariant, along with a property of all values that are evaluated. -/

set_option autoImplicit false

namespace LessCss

open List

variable {sheet : Sheet}

/-! ### Values -/

def Variables.All (value : Tokens → Prop) (vars : Variables) : Prop := ∀ entry ∈ vars.entries, value entry.2

structure MixinCall.All (value : Tokens → Prop) (call : MixinCall) : Prop where
  arguments : ∀ argument ∈ call.arguments, value argument
  named : call.named.All value

namespace Css

inductive All (value : Tokens → Prop) : Stylesheet → Prop where
  | nil : All value []
  | rule {selector : Tokens} {declarations : List Declaration} {rest : Stylesheet}
      (values : ∀ declaration ∈ declarations, value declaration.value) (behind : All value rest) :
      All value (.rule selector declarations :: rest)
  | statement {name : String} {params : Tokens} {rest : Stylesheet} (values : value params) (behind : All value rest) :
      All value (.statement name params :: rest)
  | block {name : String} {params : Tokens} {declarations : List Declaration} {children rest : Stylesheet}
      (front : value params) (values : ∀ declaration ∈ declarations, value declaration.value)
      (inside : All value children) (behind : All value rest) :
      All value (.block name params declarations children :: rest)

variable {value : Tokens → Prop}

theorem All.append {nodes others : Stylesheet} (all : All value nodes) (all' : All value others) :
    All value (nodes ++ others) := by
  induction all with
  | nil => exact all'
  | rule values _ ih => exact .rule values ih
  | statement values _ ih => exact .statement values ih
  | block front values inside _ _ ih => exact .block front values inside ih

theorem All.mapSelectors {nodes : Stylesheet} (all : All value nodes) (change : Tokens → Tokens) :
    All value (Css.mapSelectors change nodes) := by
  induction all with
  | nil =>
    rw [Css.mapSelectors]
    exact .nil
  | rule values _ ih =>
    rw [Css.mapSelectors]
    exact .rule values ih
  | statement values _ ih =>
    rw [Css.mapSelectors]
    exact .statement values ih
  | block front values _ _ ih ih' =>
    rw [Css.mapSelectors]
    exact .block front values ih ih'

end Css

namespace Extension

variable {value : Tokens → Prop}

theorem all_pass (extensions : List Extension) {nodes : Css.Stylesheet} (all : Css.All value nodes) :
    (pass extensions nodes).Yields fun passed => Css.All value passed.1 := by
  induction extensions generalizing nodes with
  | nil => exact Logged.yields_pure all
  | cons extension rest ih =>
    have stepped : (extension.step nodes).Yields fun passed => Css.All value passed.1 :=
      .after fun _ => Logged.yields_pure (all.mapSelectors _)
    exact stepped.bind fun _ all => (ih all).bind fun _ all => Logged.yields_pure all

theorem all_repeatPass (extensions : List Extension) (number limit : Nat) {nodes : Css.Stylesheet}
    (all : Css.All value nodes) : (repeatPass extensions number limit nodes).Yields (Css.All value) := by
  induction limit generalizing number nodes with
  | zero => exact Logged.yields_pure all
  | succ limit ih =>
    refine (all_pass extensions all).bind fun passed all => ?_
    dsimp only
    split
    · exact ih (number + 1) all
    · exact .after fun _ => Logged.yields_pure all

end Extension

structure Output.All (value : Tokens → Prop) (output : Output) : Prop where
  declarations : ∀ declaration ∈ output.declarations, value declaration.value
  nodes : Css.All value output.nodes

namespace Output.All

variable {value : Tokens → Prop} {first second : Output}

theorem empty : Output.empty.All value := ⟨nofun, .nil⟩

theorem append (all : first.All value) (all' : second.All value) : (first ++ second).All value := by
  refine ⟨fun declaration member => ?_, all.nodes.append all'.nodes⟩
  exact (mem_append.mp member).elim (all.declarations declaration) (all'.declarations declaration)

theorem markImportant (all : first.All value) (important : Bool) : (first.markImportant important).All value := by
  refine ⟨fun declaration member => ?_, all.nodes⟩
  obtain ⟨before, inside, rfl⟩ := mem_map.mp member
  exact all.declarations before inside

end Output.All

/-! ### Values that the processor evaluates -/

namespace Setting

open Processing

variable {setting : Setting} {value : Tokens → Prop} (values : ∀ tokens, (setting.value tokens).Yields value)

include values

theorem all_evaluateVars (vars : Variables) : (setting.evaluateVars vars).Yields (Variables.All value) := by
  have entry (named : String × Tokens) :
      Yields (do return (named.1, ← setting.value named.2)) fun entry => value entry.2 :=
    (values named.2).bind fun tokens holds => yields_pure holds
  exact (yields_mapM vars.entries entry).bind fun entries all => yields_pure all

theorem all_evaluateCall (call : MixinCall) : (setting.evaluateCall call).Yields (MixinCall.All value) := by
  refine (yields_mapM call.arguments values).bind fun arguments all => ?_
  exact (all_evaluateVars values call.named).bind fun named all' => yields_pure ⟨all, all'⟩

theorem value_asDeclaration (tokens : Tokens) (reason : Error) :
    (setting.asDeclaration tokens reason).Yields fun declaration => value declaration.value := by
  rw [asDeclaration]
  cases Statement.declaration? tokens with
  | none => exact yields_throw
  | some parts =>
    refine (yields_any _).bind fun property _ => ?_
    exact (values _).bind fun tokens holds => yields_pure holds

end Setting

/-! ### Steps -/

/-- What the steps of a run may use: scopes that closures have captured, arguments for
the parameters of a definition, and evaluated values. -/
structure Usage (sheet : Sheet) where
  captured : List (Captured sheet) → Prop
  arguments : sheet.Id → Variables → Prop
  value : Tokens → Prop

namespace Usage

variable (usage : Usage sheet)

inductive Opens : Frame sheet → Prop where
  | ruleset {id : sheet.Id} (plain : (sheet.ruleset id).isMixin = false) : Opens (.ofRuleset id)
  | guard {id : sheet.Id} {arguments : Variables} {captured : List (Captured sheet)}
      (bound : usage.arguments id arguments) (known : usage.captured captured) : Opens (.ofGuard id arguments captured)
  | call {id : sheet.Id} {arguments : Variables} {captured : List (Captured sheet)}
      (bound : usage.arguments id arguments) (known : usage.captured captured) : Opens (.ofCall id arguments captured)

structure Expects (candidate : Candidate sheet) : Prop where
  bound : usage.arguments candidate.ruleset candidate.arguments
  known : usage.captured candidate.captured

def Allows (context : Context sheet) : Step sheet → Prop
  | .push frame => usage.Opens frame
  | .addClosure closure => closure.captured = context.stack.capture closure.ruleset
  | .addReturned vars => vars.All usage.value
  | .attempt call _ => call.All usage.value
  | .pop | .saveClosures | .addExtension _ | .takeExtensions => True

end Usage

/-- The steps keep the invariant, and bring about nothing but what they may use. -/
structure Invariant (sheet : Sheet) (library : Library) extends Usage sheet where
  run : Run sheet → Prop
  steady : ∀ before processor log, run before → run { before with processor, log }
  step : ∀ before step, run before → toUsage.Allows before.context step → run (before.take step)
  offers : ∀ before caller call, run before → ∀ offer ∈ before.context.stack.definitions caller call, captured offer.2
  binds : ∀ (call : MixinCall) id vars, call.All value → call.bind? (sheet.ruleset id).selector = some vars →
    arguments id vars
  values : ∀ (scope : Scope) (tokens : Tokens), ((scope.setting library).value tokens).Yields value

theorem Scope.value_any (library : Library) (scope : Scope) (tokens : Tokens) :
    ((scope.setting library).value tokens).Yields fun _ => True :=
  Processing.yields_any _

def Invariant.trivial (library : Library) : Invariant sheet library where
  captured _ := True
  arguments _ _ := True
  value _ := True
  run _ := True
  steady _ _ _ kept := kept
  step _ _ kept _ := kept
  offers _ _ _ _ _ _ := .intro
  binds _ _ _ _ _ := .intro
  values := Scope.value_any library

end LessCss
