import LessCss.Evaluation.Context
import LessCss.Evaluation.Statement
import LessCss.Mixin
import LessCss.Processor.Values

/-! Runs of the evaluator. All parts of a run share one processor of values, one
context and one log. The context changes step by step, and the run keeps its
history: each step with the context that it has led to. Some parts of statements and
rulesets only need values. -/

set_option autoImplicit false

namespace LessCss

inductive Step (sheet : Sheet) where
  | push (frame : Frame sheet)
  | pop
  | addClosure (closure : Closure sheet)
  | saveClosures
  | addReturned (vars : Variables)
  | addExtension (extension : Extension)
  | takeExtensions
  /-- A call is about to expand a definition that it means. -/
  | attempt (call : MixinCall) (id : sheet.Id)

variable {sheet : Sheet}

def Context.after (context : Context sheet) : Step sheet → Context sheet
  | .push frame => context.push frame
  | .pop => context.pop.2
  | .addClosure closure => context.addClosure closure
  | .saveClosures => context.saveClosures
  | .addReturned vars => context.addReturned vars
  | .addExtension extension => context.addExtension extension
  | .takeExtensions => context.takeExtensions.2
  | .attempt _ _ => context

structure Moment (sheet : Sheet) where
  step : Step sheet
  context : Context sheet

/-- Moments, the latest one first, that lead to a context from the first context on. -/
inductive Traced : List (Moment sheet) → Context sheet → Prop where
  | start : Traced [] .start
  | take {history : List (Moment sheet)} {context : Context sheet} (traced : Traced history context)
      (step : Step sheet) : Traced (⟨step, context.after step⟩ :: history) (context.after step)

structure Run (sheet : Sheet) where
  processor : Processor
  log : Log
  context : Context sheet
  history : List (Moment sheet)
  traced : Traced history context

namespace Run

def start (processor : Processor) : Run sheet := ⟨processor, [], .start, [], .start⟩

def take (run : Run sheet) (step : Step sheet) : Run sheet :=
  { run with
    context := run.context.after step
    history := ⟨step, run.context.after step⟩ :: run.history
    traced := run.traced.take step }

def report (run : Run sheet) (level : Level) (message : String) : Run sheet :=
  { run with log := ⟨level, message⟩ :: run.log }

def setting (run : Run sheet) (library : Library) : Setting :=
  run.context.stack.scope.setting library

/-- A part of a run. It need not end, and has no outcome then. -/
abbrev Action (sheet : Sheet) := StateT (Run sheet) Option

end Run

/-- A part of a run that may fail. Its steps stay in the run then. -/
abbrev Evaluating (sheet : Sheet) := ExceptT Error (Run.Action sheet)

namespace Evaluating

variable {α : Type}

def take (step : Step sheet) : Evaluating sheet Unit :=
  modify (·.take step)

def report (level : Level) (message : String) : Evaluating sheet Unit :=
  modify (·.report level message)

def endless : Evaluating sheet α := fun _ => none

/-- Lets a frame be the innermost one during a part of a run. -/
def framed (frame : Frame sheet) (inner : Evaluating sheet α) : Evaluating sheet α :=
  (do
    modify (·.take (.push frame))
    let result ← inner.run
    modify (·.take .pop)
    return result : Run.Action sheet (Except Error α))

def process (library : Library) (computation : Setting → Processing α) : Evaluating sheet α :=
  fun run =>
    ((computation (run.setting library)).run.run run.processor).map fun (result, processor) =>
      (result, { run with processor })

def ofLogged (action : Logged α) : Evaluating sheet α :=
  fun run =>
    match action.run run.log with
    | .ok value log => some (.ok value, { run with log })
    | .error error log => some (.error error, { run with log })

end Evaluating

namespace Setting

def holdsAny (setting : Setting) (conditions : List Tokens) : Processing Bool :=
  if conditions.isEmpty then pure true else conditions.anyM setting.holds

def evaluateVars (setting : Setting) (vars : Variables) : Processing Variables := do
  let entries ← vars.entries.mapM fun (name, value) => do return (name, ← setting.value value)
  return ⟨entries⟩

def evaluateCall (setting : Setting) (call : MixinCall) : Processing MixinCall := do
  let arguments ← call.arguments.mapM setting.value
  let named ← setting.evaluateVars call.named
  return { call with arguments, named }

def declaration (setting : Setting) (property value : Tokens) : Processing Css.Declaration := do
  let property ← setting.interpolateTokens property
  let (value, important) := Statement.stripImportant value
  return ⟨property.text, ← setting.value value, important⟩

def asDeclaration (setting : Setting) (tokens : Tokens) (reason : Error) : Processing Css.Declaration :=
  match Statement.declaration? tokens with
  | none => throw reason
  | some (property, value) => setting.declaration property value

end Setting

end LessCss
