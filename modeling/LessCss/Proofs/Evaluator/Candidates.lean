import LessCss.Proofs.Evaluator.Follows
import LessCss.Proofs.Evaluator.Parts

/-! The search for the definitions that a call means, and the additions to the
context, follow their counterparts without a run. -/

set_option autoImplicit false

namespace LessCss.Evaluating

variable {sheet : Sheet} {α : Type} (library : Library) {run : Run sheet} {context : Context sheet}

def Agree (context : Context sheet) (value result : α) (after : Context sheet) : Prop :=
  result = value ∧ after = context

/-- The processor computes what it is to compute in the scope of the context. -/
theorem follows_scope {library : Library} {computation : Setting → Processing α}
    {result : Except Error α} (sound : run.Sound none) (here : run.context = context)
    (kept : (computation (context.stack.scope.setting library)).Keeps .fresh result) :
    Follows (process library computation) run (Logged.ofExcept result) (Agree context) := by
  subst here
  exact follows_process sound kept

theorem follows_matchGuard (id : sheet.Id) (arguments : Variables) (captured : List (Captured sheet))
    (sound : run.Sound none) (here : run.context = context) :
    Follows (matchGuard library id arguments captured) run
      (Logged.ofExcept ((Stack.scope (.ofGuard id arguments captured :: context.stack)).holdsAny library
        (sheet.ruleset id).selector.conditions))
      (Agree context) := by
  subst here
  have pushed : (run.take (.push (.ofGuard id arguments captured))).Sound none :=
    sound.take sound.distinct fun _ _ => nofun
  refine Follows.framed (follows_scope pushed rfl (Scope.keeps_holdsAny library _ _)) ?_
  rintro _ holds after ⟨rfl, rfl⟩
  exact ⟨rfl, rfl⟩

theorem follows_holdsGuard (id : sheet.Id) (arguments : Variables) (captured : List (Captured sheet))
    (sound : run.Sound none) (here : run.context = context) :
    Follows (holdsGuard library id arguments captured) run
      (Logged.ofExcept ((Stack.scope (.ofGuard id arguments captured :: context.stack)).holdsAny library
        (sheet.ruleset id).selector.conditions))
      (Agree context) := by
  rw [holdsGuard]
  by_cases guarded : (sheet.ruleset id).selector.isGuarded
  · rw [if_pos guarded]
    exact follows_matchGuard library id arguments captured sound here
  · have unguarded : (sheet.ruleset id).selector.conditions.isEmpty := by
      simpa [Selector.isGuarded] using guarded
    -- Without a guard no frame is pushed, and the guard holds in any scope.
    rw [if_neg guarded, Scope.holdsAny, if_pos unguarded]
    exact follows_pure sound ⟨rfl, here⟩

theorem follows_candidate (call : MixinCall) (id : sheet.Id) (captured : List (Captured sheet))
    (sound : run.Sound none) (here : run.context = context) :
    Follows (candidate? library call id captured) run
      (context.stack.candidate? library call id captured) (Agree context) := by
  rw [candidate?, Stack.candidate?]
  cases call.bind? (sheet.ruleset id).selector with
  | none => exact follows_report_pure sound ⟨rfl, here⟩
  | some arguments =>
    refine (follows_holdsGuard library id arguments captured sound here).bind ?_
    rintro _ holds after sound ⟨rfl, here⟩
    cases holds with
    | true => exact follows_pure sound ⟨rfl, here⟩
    | false => exact follows_report_pure sound ⟨rfl, here⟩

theorem follows_candidatesOf (call : MixinCall) (found : List (sheet.Id × List (Captured sheet)))
    (sound : run.Sound none) (here : run.context = context) :
    Follows (candidatesOf library call found) run (context.stack.candidatesOf library call found)
      (Agree context) := by
  induction found generalizing run with
  | nil => exact follows_pure sound ⟨rfl, here⟩
  | cons first rest ih =>
    refine (follows_candidate library call first.1 first.2 sound here).bind ?_
    rintro _ candidate? after sound ⟨rfl, here⟩
    refine (ih sound here).bind ?_
    rintro _ candidates after sound ⟨rfl, here⟩
    exact follows_pure sound ⟨rfl, here⟩

theorem follows_candidates (caller : Option sheet.Id) (call : MixinCall) (sound : run.Sound none)
    (here : run.context = context) :
    Follows (candidates library caller call) run (context.stack.candidates library caller call)
      (Agree context) := by
  subst here
  rw [candidates, Stack.candidates]
  refine follows_get_bind ((follows_candidatesOf library call _ sound rfl).bind ?_)
  rintro _ found after sound ⟨rfl, here⟩
  exact follows_report_pure sound ⟨rfl, here⟩

theorem evaluateExtends_nil (scope : Scope) (selector : Tokens) :
    Evaluation.evaluateExtends library scope selector [] = .ok [] :=
  rfl

theorem evaluateExtends_cons (scope : Scope) (selector : Tokens) (directive : Extend) (rest : List Extend) :
    Evaluation.evaluateExtends library scope selector (directive :: rest) = do
      let target ← scope.interpolateTokens library directive.target
      let others ← Evaluation.evaluateExtends library scope selector rest
      return ⟨target, selector, directive.all⟩ :: others := by
  simp only [Evaluation.evaluateExtends, List.mapM_cons, bind_assoc, pure_bind]

theorem follows_addExtensions (selector : Tokens) (directives : List Extend)
    (sound : run.Sound none) (here : run.context = context) :
    Follows (addExtensions library selector directives) run
      (Logged.ofExcept
        (Evaluation.evaluateExtends library context.stack.scope selector directives))
      fun extensions _ after =>
        after = { context with extensions := context.extensions ++ extensions } := by
  induction directives generalizing run context with
  | nil =>
    rw [evaluateExtends_nil]
    exact follows_pure sound (by rw [here, List.append_nil])
  | cons directive rest ih =>
    rw [evaluateExtends_cons, Logged.ofExcept_bind]
    refine Follows.bind (follows_scope sound here (Scope.keeps_interpolateTokens library _ _)) ?_
    rintro _ target after sound ⟨rfl, here⟩
    subst here
    have added : (after.take (.addExtension ⟨target, selector, directive.all⟩)).Sound none :=
      sound.take sound.distinct fun _ _ => nofun
    rw [Logged.ofExcept_bind]
    refine follows_take_bind ((ih added rfl).restate ?_)
    rintro extensions _ _ rfl
    simp [Run.take, Context.after, Context.addExtension]

def closuresOf (stack : Stack sheet) (ids : List sheet.Id) : List (Closure sheet) :=
  (ids.filter fun id => (sheet.ruleset id).isMixin).map fun id => ⟨id, stack.capture id⟩

theorem follows_addClosures (ids : List sheet.Id) (sound : run.Sound none) (here : run.context = context) :
    Follows (addClosures ids) run (pure ()) fun _ _ after =>
      after = { context with pending := context.pending ++ closuresOf context.stack ids } := by
  subst here
  induction ids generalizing run with
  | nil => exact follows_pure sound (by simp [closuresOf])
  | cons id rest ih =>
    rw [addClosures]
    by_cases mixin : (sheet.ruleset id).isMixin
    · rw [if_pos mixin]
      have added : (run.take (.addClosure ⟨id, run.context.stack.capture id⟩)).Sound none :=
        sound.take sound.distinct fun _ _ => nofun
      refine follows_get_bind (follows_take_bind ((ih added).imp ?_))
      rintro _ _ _ rfl
      simp [Run.take, Context.after, Context.addClosure, closuresOf, mixin]
    · rw [if_neg mixin]
      refine (ih sound).imp ?_
      rintro _ _ _ rfl
      simp [closuresOf, mixin]

end LessCss.Evaluating
