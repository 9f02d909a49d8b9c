import LessCss.Evaluator.Ruleset
import LessCss.Proofs.Processor.Keeps

/-! Sound runs, and parts of a run that follow another computation.

A run is sound as long as the definitions under expansion are distinct at every
moment and an attempt to expand one of them once more has ended the run. A part
of a run follows a computation that only keeps a log if it has the same outcome
and the run stays sound; a condition says what the results and the context are
then. The rules go along both computations step by step. -/

set_option autoImplicit false

namespace LessCss

open List

variable {sheet : Sheet}

def Frame.expanded? (frame : Frame sheet) : Option sheet.Id :=
  if frame.purpose = .expansion then frame.ruleset else none

def Stack.expansions (stack : Stack sheet) : List sheet.Id :=
  stack.filterMap Frame.expanded?

namespace Stack

theorem mem_calls_of_mem_expansions {stack : Stack sheet} {id : sheet.Id}
    (member : id ∈ stack.expansions) : id ∈ stack.calls := by
  obtain ⟨frame, inside, expands⟩ := mem_filterMap.mp member
  refine mem_filterMap.mpr ⟨frame, inside, ?_⟩
  unfold Frame.expanded? at expands
  split at expands
  · rename_i purpose
    simp [Frame.callee?, Frame.isCall, purpose, expands]
  · cases expands

end Stack

namespace Context

def Distinct (context : Context sheet) : Prop := context.stack.expansions.Nodup

variable {context : Context sheet}

theorem Distinct.pop (distinct : context.Distinct) : (context.after .pop).Distinct :=
  distinct.sublist (context.stack.tail_sublist.filterMap _)

theorem expansions_modifyTop (change : Frame sheet → Frame sheet)
    (kept : ∀ frame, (change frame).expanded? = frame.expanded?) :
    (context.modifyTop change).stack.expansions = context.stack.expansions := by
  unfold modifyTop
  split
  · rfl
  · rename_i frame outer found
    rw [found]
    simp only [Stack.expansions, filterMap_cons, kept]

theorem Distinct.saveClosures (distinct : context.Distinct) : (context.after .saveClosures).Distinct := by
  change (context.modifyTop _).stack.expansions.Nodup
  rw [expansions_modifyTop (·.addClosures context.pending) fun _ => rfl]
  exact distinct

theorem Distinct.addReturned (distinct : context.Distinct) (vars : Variables) :
    (context.after (.addReturned vars)).Distinct := by
  change (context.modifyTop _).stack.expansions.Nodup
  rw [expansions_modifyTop (·.addReturned vars) fun _ => rfl]
  exact distinct

end Context

namespace Run

-- The failure belongs to the condition: a refused attempt stays in the history,
-- and is only harmless because the run has ended with it.
/-- The run is sound up to here, and has failed with this error, if with any. -/
structure Sound (run : Run sheet) (failure : Option Error) : Prop where
  fresh : run.processor = .fresh
  distinct : run.context.Distinct
  lasting : ∀ moment ∈ run.history, moment.context.Distinct
  caught : ∀ moment ∈ run.history, ∀ (call : MixinCall) (id : sheet.Id),
    moment.step = .attempt call id → id ∈ moment.context.stack.expansions →
      failure = some (.cyclicMixin call.name.position call.displayName)

namespace Sound

variable {run : Run sheet} {failure : Option Error}

theorem report (sound : run.Sound failure) (level : Level) (message : String) :
    (run.report level message).Sound failure :=
  ⟨sound.fresh, sound.distinct, sound.lasting, sound.caught⟩

theorem fail (sound : run.Sound none) (error : Error) : run.Sound (some error) :=
  ⟨sound.fresh, sound.distinct, sound.lasting, fun moment member call id attempt active =>
    nomatch sound.caught moment member call id attempt active⟩

/-- A step that is no attempt to expand a definition under expansion. -/
theorem take {step : Step sheet} (sound : run.Sound failure) (distinct : (run.context.after step).Distinct)
    (harmless : ∀ call id, step = .attempt call id → id ∉ run.context.stack.expansions) :
    (run.take step).Sound failure := by
  refine ⟨sound.fresh, distinct, ?_, ?_⟩
  · intro moment member
    rcases mem_cons.mp member with rfl | earlier
    · exact distinct
    · exact sound.lasting moment earlier
  · intro moment member call id attempt active
    rcases mem_cons.mp member with rfl | earlier
    · cases attempt
      exact absurd active (harmless call id rfl)
    · exact sound.caught moment earlier call id attempt active

/-- What the processor computes without changing itself changes nothing in the run. -/
theorem process_eq {α : Type} {library : Library} {computation : Setting → Processing α}
    {result : Except Error α} (sound : run.Sound failure)
    (kept : (computation (run.setting library)).Keeps .fresh result) :
    (Evaluating.process library computation).run.run run = some (result, run) := by
  change ((computation (run.setting library)).run.run run.processor).map _ = _
  rw [sound.fresh, kept, ← sound.fresh]
  rfl

end Sound

end Run

namespace Evaluating

variable {α β γ δ : Type}

/-- The part of a run does what the other computation does, and the run stays
sound. After a success the results and the context satisfy the condition. -/
inductive Follows (action : Evaluating sheet β) (run : Run sheet) (other : Logged α)
    (post : α → β → Context sheet → Prop) : Prop where
  | ok {value : α} {result : β} {after : Run sheet}
      (does : action.run.run run = some (.ok result, after))
      (same : other.run run.log = .ok value after.log) (sound : after.Sound none)
      (holds : post value result after.context)
  | error {error : Error} {after : Run sheet}
      (does : action.run.run run = some (.error error, after))
      (same : other.run run.log = .error error after.log) (sound : after.Sound (some error))

variable {run : Run sheet} {post : α → β → Context sheet → Prop} {post' : γ → δ → Context sheet → Prop}

theorem follows_pure {value : α} {result : β} (sound : run.Sound none)
    (holds : post value result run.context) : Follows (pure result) run (pure value) post :=
  .ok rfl rfl sound holds

theorem follows_throw {error : Error} (sound : run.Sound none) : Follows (throw error) run (throw error) post :=
  .error rfl rfl (sound.fail error)

theorem Follows.bind {action : Evaluating sheet β} {next : β → Evaluating sheet δ}
    {other : Logged α} {other' : α → Logged γ} (follows : Follows action run other post)
    (rest : ∀ value result after, after.Sound none → post value result after.context →
      Follows (next result) after (other' value) post') :
    Follows (action >>= next) run (other >>= other') post' := by
  cases follows with
  | error does same sound =>
    refine .error (Processing.run_bind_error does) ?_ sound
    rw [EStateM.run_bind, same]
  | @ok value result after does same sound holds =>
    have action_goes : (action >>= next).run.run run = (next result).run.run after :=
      Processing.run_bind_ok does
    have other_goes : (other >>= other').run run.log = (other' value).run after.log := by
      rw [EStateM.run_bind, same]
    cases rest value result after sound holds with
    | ok does' same' sound' holds' =>
      exact .ok (action_goes.trans does') (other_goes.trans same') sound' holds'
    | error does' same' sound' =>
      exact .error (action_goes.trans does') (other_goes.trans same') sound'

/-- A first part of a run that the other computation does not know about. -/
theorem Follows.bind_alone {action : Evaluating sheet β} {next : β → Evaluating sheet δ}
    {other : Logged γ} {post : Unit → β → Context sheet → Prop}
    (follows : Follows action run (pure ()) post)
    (rest : ∀ result after, after.Sound none → post () result after.context →
      Follows (next result) after other post') :
    Follows (action >>= next) run other post' := by
  rw [← pure_bind () fun _ => other]
  exact follows.bind fun _ result after sound holds => rest result after sound holds

theorem Follows.imp {action : Evaluating sheet β} {other : Logged α}
    {post₁ : α → β → Context sheet → Prop} (follows : Follows action run other post)
    (weaker : ∀ value result context, post value result context → post₁ value result context) :
    Follows action run other post₁ := by
  cases follows with
  | ok does same sound holds => exact .ok does same sound (weaker _ _ _ holds)
  | error does same sound => exact .error does same sound

/-- The other computation only states its result anew. -/
theorem Follows.restate {action : Evaluating sheet β} {other : Logged α} {restated : α → γ}
    {post₁ : γ → β → Context sheet → Prop} (follows : Follows action run other post)
    (weaker : ∀ value result context, post value result context →
      post₁ (restated value) result context) :
    Follows action run (other >>= fun value => pure (restated value)) post₁ := by
  cases follows with
  | ok does same sound holds =>
    refine .ok does ?_ sound (weaker _ _ _ holds)
    rw [EStateM.run_bind, same]
    rfl
  | error does same sound =>
    refine .error does ?_ sound
    rw [EStateM.run_bind, same]

theorem follows_get_bind {next : Run sheet → Evaluating sheet β} {other : Logged α}
    (rest : Follows (next run) run other post) :
    Follows ((get : Evaluating sheet (Run sheet)) >>= next) run other post := by
  cases rest with
  | ok does same sound holds => exact .ok does same sound holds
  | error does same sound => exact .error does same sound

theorem follows_report_bind {level : Level} {message : String} {next : Unit → Evaluating sheet β}
    {other : Unit → Logged α} (rest : Follows (next ()) (run.report level message) (other ()) post) :
    Follows (report level message >>= next) run (Logged.report level message >>= other) post := by
  cases rest with
  | ok does same sound holds => exact .ok does same sound holds
  | error does same sound => exact .error does same sound

/-- Both computations report the same at their end. -/
theorem follows_report_pure {level : Level} {message : String} {value : α} {result : β}
    (sound : run.Sound none) (holds : post value result run.context) :
    Follows (report level message >>= fun _ => pure result) run
      (Logged.report level message >>= fun _ => pure value) post :=
  follows_report_bind (follows_pure (sound.report level message) holds)

/-- The processor computes what the other computation is given. -/
theorem follows_process {library : Library} {computation : Setting → Processing α}
    {result : Except Error α} (sound : run.Sound none)
    (kept : (computation (run.setting library)).Keeps .fresh result) :
    Follows (process library computation) run (Logged.ofExcept result)
      fun value result context => result = value ∧ context = run.context := by
  have does := sound.process_eq kept
  cases result with
  | ok value => exact .ok does rfl sound ⟨rfl, rfl⟩
  | error error => exact .error does rfl (sound.fail error)

theorem follows_ofLogged {action : Logged α} (sound : run.Sound none) :
    Follows (ofLogged action) run action fun value result _ => result = value := by
  cases outcome : action.run run.log with
  | ok value log =>
    have does : (ofLogged action).run.run run = some (.ok value, { run with log }) := by
      simp only [ofLogged, ExceptT.run, StateT.run, outcome]
    exact .ok does outcome ⟨sound.fresh, sound.distinct, sound.lasting, sound.caught⟩ rfl
  | error error log =>
    have does : (ofLogged action).run.run run = some (.error error, { run with log }) := by
      simp only [ofLogged, ExceptT.run, StateT.run, outcome]
    have failed := sound.fail error
    exact .error does outcome ⟨failed.fresh, failed.distinct, failed.lasting, failed.caught⟩

/-- A step of the run that the other computation does not know about. -/
theorem follows_take_bind {step : Step sheet} {next : Unit → Evaluating sheet β} {other : Logged α}
    (rest : Follows (next ()) (run.take step) other post) :
    Follows (take step >>= next) run other post := by
  cases rest with
  | ok does same sound holds => exact .ok does same sound holds
  | error does same sound => exact .error does same sound

/-- A part of a run in a frame that is pushed before it and popped after it. -/
theorem Follows.framed {frame : Frame sheet} {action : Evaluating sheet β} {other : Logged α}
    {post₁ : α → β → Context sheet → Prop}
    (follows : Follows action (run.take (.push frame)) other post)
    (weaker : ∀ value result context, post value result context →
      post₁ value result (context.after .pop)) :
    Follows (framed frame action) run other post₁ := by
  have popped {result : Except Error β} {after : Run sheet}
      (does : action.run.run (run.take (.push frame)) = some (result, after)) :
      (Evaluating.framed frame action).run.run run = some (result, after.take .pop) := by
    change (action.run.run (run.take (.push frame)) >>= _) = _
    rw [does]
    rfl
  cases follows with
  | ok does same sound holds =>
    exact .ok (popped does) same (sound.take sound.distinct.pop fun _ _ => nofun) (weaker _ _ _ holds)
  | error does same sound =>
    exact .error (popped does) same (sound.take sound.distinct.pop fun _ _ => nofun)

end Evaluating

end LessCss
