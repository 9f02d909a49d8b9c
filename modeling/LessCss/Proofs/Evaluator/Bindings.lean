import LessCss.Proofs.Evaluator.Frames

/-! Which arguments the frames of a run hold. Main statement: at each moment of a
run, the frame of an expansion or of a guard holds arguments that some call can
give to its definition, the frame of a ruleset holds none and its ruleset is no
mixin, and all arguments that closures have brought along or will bring along are
arguments that some call can give. -/

set_option autoImplicit false

namespace LessCss

open List

variable {sheet : Sheet}

def Sheet.Binds (id : sheet.Id) (arguments : Variables) : Prop :=
  ∃ call : MixinCall, call.bind? (sheet.ruleset id).selector = some arguments

def Captured.Lawful (captured : Captured sheet) : Prop :=
  Sheet.Binds captured.ruleset captured.arguments

def Closure.Lawful (closure : Closure sheet) : Prop :=
  ∀ captured ∈ closure.captured, captured.Lawful

/-- What the arguments of a frame are to the ruleset of the frame. -/
def Frame.Holds (frame : Frame sheet) (id : sheet.Id) : Prop :=
  if frame.isCall then Sheet.Binds id frame.arguments
  else (sheet.ruleset id).isMixin = false ∧ frame.arguments = .empty

structure Frame.Lawful (frame : Frame sheet) : Prop where
  holds : ∀ id, frame.ruleset = some id → frame.Holds id
  captured : ∀ captured ∈ frame.captured, captured.Lawful
  closures : ∀ closure ∈ frame.closures, closure.Lawful

namespace Frame

theorem lawful_root : (root : Frame sheet).Lawful := ⟨nofun, nofun, nofun⟩

theorem lawful_ofRuleset {id : sheet.Id} (plain : (sheet.ruleset id).isMixin = false) : (ofRuleset id).Lawful :=
  ⟨fun _ same => Option.some.inj same ▸ ⟨plain, rfl⟩, nofun, nofun⟩

theorem lawful_ofCall {id : sheet.Id} {arguments : Variables} {captured : List (Captured sheet)}
    (bound : Sheet.Binds id arguments) (lawful : ∀ scope ∈ captured, scope.Lawful) :
    (ofCall id arguments captured).Lawful :=
  ⟨fun _ same => Option.some.inj same ▸ bound, lawful, nofun⟩

theorem lawful_ofGuard {id : sheet.Id} {arguments : Variables} {captured : List (Captured sheet)}
    (bound : Sheet.Binds id arguments) (lawful : ∀ scope ∈ captured, scope.Lawful) :
    (ofGuard id arguments captured).Lawful :=
  ⟨fun _ same => Option.some.inj same ▸ bound, lawful, nofun⟩

end Frame

def Stack.Lawful (stack : Stack sheet) : Prop := ∀ frame ∈ stack, frame.Lawful

structure Context.Lawful (context : Context sheet) : Prop where
  stack : context.stack.Lawful
  pending : ∀ closure ∈ context.pending, closure.Lawful

def Step.Lawful : Step sheet → Prop
  | .push frame => frame.Lawful
  | .addClosure closure => closure.Lawful
  | _ => True

namespace Context.Lawful

theorem start : (Context.start : Context sheet).Lawful :=
  ⟨forall_mem_singleton.mpr Frame.lawful_root, nofun⟩

theorem modifyTop {context : Context sheet} (lawful : context.Lawful) {change : Frame sheet → Frame sheet}
    (keeps : ∀ frame : Frame sheet, frame.Lawful → (change frame).Lawful) :
    (context.modifyTop change).Lawful := by
  obtain ⟨stack, extensions, pending⟩ := context
  cases stack with
  | nil => exact lawful
  | cons frame outer =>
    obtain ⟨top, rest⟩ := forall_mem_cons.mp lawful.stack
    exact ⟨forall_mem_cons.mpr ⟨keeps frame top, rest⟩, lawful.pending⟩

theorem after {context : Context sheet} (lawful : context.Lawful) {step : Step sheet}
    (adds : step.Lawful) : (context.after step).Lawful := by
  cases step with
  | push frame => exact ⟨forall_mem_cons.mpr ⟨adds, lawful.stack⟩, lawful.pending⟩
  | pop => exact ⟨fun frame member => lawful.stack frame (mem_of_mem_tail member), lawful.pending⟩
  | addClosure closure =>
    refine ⟨lawful.stack, fun other member => ?_⟩
    rcases mem_append.mp member with old | new
    · exact lawful.pending other old
    · exact mem_singleton.mp new ▸ adds
  | saveClosures =>
    have saved : (context.modifyTop (·.addClosures context.pending)).Lawful :=
      lawful.modifyTop fun frame top => ⟨top.holds, top.captured, fun closure member =>
        (mem_append.mp member).elim (top.closures closure) (lawful.pending closure)⟩
    exact ⟨saved.stack, nofun⟩
  | addReturned vars => exact lawful.modifyTop fun _ top => ⟨top.holds, top.captured, top.closures⟩
  | addExtension | takeExtensions | attempt => exact ⟨lawful.stack, lawful.pending⟩

end Context.Lawful

/-! ### What is read off a stack -/

namespace Stack.Lawful

variable {stack : Stack sheet}

theorem callOf {id : sheet.Id} {frame : Frame sheet} (lawful : stack.Lawful)
    (found : stack.callOf? id = some frame) : frame.Lawful ∧ Sheet.Binds id frame.arguments := by
  have top := lawful frame (List.mem_of_find?_eq_some found)
  have callee : frame.callee? = some id := by simpa using List.find?_some found
  rw [Frame.callee?] at callee
  split at callee
  · rename_i isCall
    have holds := top.holds id callee
    rw [Frame.Holds, if_pos isCall] at holds
    exact ⟨top, holds⟩
  · cases callee

theorem capture (lawful : stack.Lawful) (id : sheet.Id) : ∀ captured ∈ stack.capture id, captured.Lawful := by
  intro captured member
  obtain ⟨ancestor, _, member⟩ := mem_flatMap.mp member
  split at member
  · split at member
    · rename_i call found
      obtain ⟨top, bound⟩ := lawful.callOf found
      rcases mem_cons.mp member with rfl | member
      · exact bound
      · exact top.captured captured member
    · cases member
  · cases member

theorem closuresOf (lawful : stack.Lawful) (ruleset : Option sheet.Id) :
    ∀ closure ∈ stack.closuresOf ruleset, closure.Lawful := by
  intro closure member
  rw [Stack.closuresOf] at member
  split at member
  · rename_i frame found
    exact (lawful frame (List.mem_of_find?_eq_some found)).closures closure member
  · cases member

theorem definitions (lawful : stack.Lawful) (caller : Option sheet.Id) (call : MixinCall) :
    ∀ offer ∈ stack.definitions caller call, ∀ captured ∈ offer.2, captured.Lawful := by
  intro offer member captured inside
  rw [Stack.definitions] at member
  cases found : ((sheet.levels caller).map (stack.definitionsAt call)).find? (fun found => !found.isEmpty) with
  | none => rw [found] at member; cases member
  | some offers =>
    rw [found] at member
    obtain ⟨level, _, rfl⟩ := mem_map.mp (List.mem_of_find?_eq_some found)
    rcases mem_append.mp member with own | left
    · obtain ⟨id, _, own⟩ := mem_flatMap.mp own
      obtain ⟨_, _, rfl⟩ := mem_map.mp own
      cases inside
    · obtain ⟨closure, known, left⟩ := mem_flatMap.mp left
      obtain ⟨_, _, rfl⟩ := mem_map.mp left
      exact lawful.closuresOf level.scope closure known captured inside

end Stack.Lawful

/-! ### Runs -/

structure Run.Lawful (run : Run sheet) : Prop where
  now : run.context.Lawful
  moments : ∀ moment ∈ run.history, moment.context.Lawful

theorem Run.Lawful.take {run : Run sheet} (lawful : run.Lawful) {step : Step sheet} (adds : step.Lawful) :
    (run.take step).Lawful :=
  ⟨lawful.now.after adds, forall_mem_cons.mpr ⟨lawful.now.after adds, lawful.moments⟩⟩

namespace Run

def lawfulUse : Usage sheet where
  captured := fun captured => ∀ scope ∈ captured, scope.Lawful
  arguments := fun id arguments => ∃ call : MixinCall, call.bind? (sheet.ruleset id).selector = some arguments
  value := fun _ => True

theorem lawful_of_opens {frame : Frame sheet} (opens : lawfulUse.Opens frame) : frame.Lawful := by
  cases opens with
  | ruleset plain => exact Frame.lawful_ofRuleset plain
  | guard bound known => exact Frame.lawful_ofGuard bound known
  | call bound known => exact Frame.lawful_ofCall bound known

theorem Lawful.step {run : Run sheet} (lawful : run.Lawful) {step : Step sheet}
    (allowed : lawfulUse.Allows run.context step) : (run.take step).Lawful := by
  refine lawful.take ?_
  cases step with
  | push frame => exact lawful_of_opens allowed
  | addClosure closure =>
    have captured : closure.captured = run.context.stack.capture closure.ruleset := allowed
    rw [Step.Lawful, Closure.Lawful, captured]
    exact lawful.now.stack.capture closure.ruleset
  | pop | saveClosures | addReturned | addExtension | takeExtensions | attempt => trivial

def lawful (library : Library) : Invariant sheet library where
  toUsage := lawfulUse
  run := Lawful
  steady _ _ _ kept := ⟨kept.now, kept.moments⟩
  step _ _ kept allowed := kept.step allowed
  offers _ caller call kept := kept.now.stack.definitions caller call
  binds call _ _ _ bound := ⟨call, bound⟩
  values := Scope.value_any library

end Run

/-- At each moment of the run on a sheet the context is lawful. -/
theorem Evaluator.lawful_run {evaluator : Evaluator} {sheet : Sheet} {result : Except Error Css.Stylesheet}
    {run : Run sheet} (ends : evaluator.run sheet = some (result, run)) : run.Lawful :=
  (Evaluating.orderly_stylesheet (Run.lawful evaluator.library) ⟨.start, nofun⟩ ends).1.1

end LessCss
