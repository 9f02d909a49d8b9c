import LessCss.Proofs.Evaluator.Candidates

/-! Statements, rulesets and calls in a run follow their counterparts without
one. As there, the expansion of definitions enters by an assumption, for stacks
with the same calls. The definitions that are not under expansion become fewer
with each expansion, so the assumption can be discharged. -/

set_option autoImplicit false

namespace LessCss.Evaluating

open List

open Evaluation (Expand Progress Expansion)

variable {sheet : Sheet} {library : Library} {instantiate : Instantiate sheet}
  {calls : List sheet.Id} {run : Run sheet} {frame : Frame sheet} {outer : Stack sheet}
  {extensions : List Extension}

def Expanded (frame : Frame sheet) (outer : Stack sheet) (extensions : List Extension)
    (expansion : Expansion sheet) (output : Output) (after : Context sheet) : Prop :=
  output = expansion.yield.toOutput ∧
    after = ⟨(frame.addClosures expansion.closures).addReturned expansion.locals :: outer,
      extensions ++ expansion.yield.extensions, []⟩

def Expands (instantiate : Instantiate sheet) (expand : Expand sheet calls) : Prop :=
  ∀ (frame : Frame sheet) (outer : Stack sheet) (same : Stack.calls (frame :: outer) = calls)
    (call : MixinCall) (candidate : Candidate sheet) (selector : Tokens)
    (extensions : List Extension) (run : Run sheet), run.Sound none →
      run.context = ⟨frame :: outer, extensions, []⟩ →
        Follows (instantiate call selector candidate) run
          (expand (frame :: outer) same call candidate selector) (Expanded frame outer extensions)

def Progressed (outer : Stack sheet) (extensions : List Extension) (progress : Progress frame)
    (output : Output) (after : Context sheet) : Prop :=
  output = progress.yield.toOutput ∧ progress.after.ruleset = frame.ruleset ∧
    after = ⟨progress.after :: outer, extensions ++ progress.yield.extensions, []⟩

inductive Called (outer : Stack sheet) (extensions : List Extension) :
    Option (Progress frame) → Option Output → Context sheet → Prop where
  | found {progress : Progress frame} {output : Output} {after : Context sheet}
      (progressed : Progressed outer extensions progress output after) :
      Called outer extensions (some progress) (some output) after
  | absent {after : Context sheet} (here : after = ⟨frame :: outer, extensions, []⟩) :
      Called outer extensions none none after

def Yielded (stack : Stack sheet) (extensions : List Extension) (yield : Yield)
    (nodes : Css.Stylesheet) (after : Context sheet) : Prop :=
  nodes = yield.nodes ∧ yield.declarations = [] ∧
    after = ⟨stack, extensions ++ yield.extensions, []⟩

theorem progressed_empty {after : Context sheet} (here : after = ⟨frame :: outer, extensions, []⟩) :
    Progressed outer extensions (.still frame .empty) .empty after := by
  refine ⟨rfl, rfl, ?_⟩
  rw [here]
  exact congrArg (Context.mk _ · _) (append_nil _).symm

theorem progressed_declaration (declaration : Css.Declaration) {after : Context sheet}
    (here : after = ⟨frame :: outer, extensions, []⟩) :
    Progressed outer extensions (.still frame (.ofDeclaration declaration)) ⟨[declaration], []⟩
      after :=
  ⟨rfl, rfl, (progressed_empty here).2.2⟩

theorem yielded_empty {stack : Stack sheet} {after : Context sheet}
    (here : after = ⟨stack, extensions, []⟩) : Yielded stack extensions .empty [] after := by
  refine ⟨rfl, rfl, ?_⟩
  rw [here]
  exact congrArg (Context.mk _ · _) (append_nil _).symm

/-- Rulesets one after the other, if each of them follows its counterpart. -/
theorem follows_nested {ι : Type} {stack : Stack sheet} (evaluate : ι → Evaluating sheet Css.Stylesheet)
    (other : ι → Logged Yield) (children : List ι)
    (each : ∀ (child : ι) {run : Run sheet} {extensions : List Extension}, run.Sound none →
      run.context = ⟨stack, extensions, []⟩ →
        Follows (evaluate child) run (other child) (Yielded stack extensions))
    (sound : run.Sound none) (here : run.context = ⟨stack, extensions, []⟩) :
    Follows (children.mapM evaluate) run (children.mapM other)
      fun yields parts => Yielded stack extensions (Yield.concat yields) parts.flatten := by
  induction children generalizing run extensions with
  | nil =>
    rw [mapM_nil, mapM_nil]
    exact follows_pure sound (yielded_empty here)
  | cons child rest ih =>
    rw [mapM_cons, mapM_cons]
    refine (each child sound here).bind ?_
    rintro yield _ after sound ⟨rfl, bare, here⟩
    refine (ih sound here).bind ?_
    rintro yields parts after sound ⟨nodes, bare', here⟩
    refine follows_pure sound ⟨?_, ?_, by rw [here, List.append_assoc]; rfl⟩
    · rw [flatten_cons, nodes]
      rfl
    · change yield.declarations ++ (Yield.concat yields).declarations = []
      rw [bare, bare', append_nil]

section

variable (library) {expand : Expand sheet calls} (expands : Expands instantiate expand)

include expands

theorem follows_instantiateAll (call : MixinCall) (selector : Tokens)
    (candidates : List (Candidate sheet)) (same : Stack.calls (frame :: outer) = calls)
    (sound : run.Sound none) (here : run.context = ⟨frame :: outer, extensions, []⟩) :
    Follows (instantiateAll instantiate call selector candidates) run
      (Evaluation.expandAll expand outer call selector frame same candidates)
      (Progressed outer extensions) := by
  induction candidates generalizing run frame extensions with
  | nil =>
    rw [instantiateAll, Evaluation.expandAll]
    exact follows_pure sound (progressed_empty here)
  | cons candidate rest ih =>
    rw [instantiateAll, Evaluation.expandAll]
    refine (expands frame outer same call candidate selector extensions run sound here).bind ?_
    rintro expansion _ after sound ⟨rfl, here⟩
    let next := (frame.addClosures expansion.closures).addReturned expansion.locals
    have same' : Stack.calls (next :: outer) = calls := same
    refine (ih same' sound here).bind ?_
    rintro progress _ after sound ⟨rfl, kept, here⟩
    exact follows_pure sound ⟨rfl, kept, by rw [here, List.append_assoc]; rfl⟩

theorem follows_callMixin (call : MixinCall) (selector : Tokens)
    (same : Stack.calls (frame :: outer) = calls) (sound : run.Sound none)
    (here : run.context = ⟨frame :: outer, extensions, []⟩) :
    Follows (callMixin library instantiate frame.ruleset call selector) run
      (Evaluation.evaluateCall library expand outer call selector frame same)
      (Called outer extensions) := by
  rw [callMixin, Evaluation.evaluateCall]
  refine Follows.bind (follows_scope sound here (Scope.keeps_evaluateCall library _ _)) ?_
  rintro _ call after sound ⟨rfl, here⟩
  refine (follows_candidates library frame.ruleset call sound here).bind ?_
  rintro _ candidates after sound ⟨rfl, here⟩
  by_cases empty : candidates.isEmpty
  · rw [if_pos empty, if_pos empty]
    exact follows_report_pure sound (.absent here)
  · rw [if_neg empty, if_neg empty]
    refine (follows_instantiateAll expands call selector candidates same sound here).bind ?_
    rintro progress _ after sound ⟨rfl, kept, here⟩
    exact follows_pure sound (.found ⟨rfl, kept, here⟩)

theorem follows_statement (id : sheet.Id) (selector tokens : Tokens)
    (same : Stack.calls (frame :: outer) = calls) (inside : frame.ruleset = some id)
    (sound : run.Sound none) (here : run.context = ⟨frame :: outer, extensions, []⟩) :
    Follows (statement library instantiate id selector tokens) run
      (Evaluation.evaluateStatement library expand outer selector frame same tokens)
      (Progressed outer extensions) := by
  rw [statement, Evaluation.evaluateStatement]
  by_cases ignored : tokens.headIs .atKeyword
  · rw [if_pos ignored, if_pos ignored]
    exact follows_report_pure sound (progressed_empty here)
  · rw [if_neg ignored, if_neg ignored]
    cases Statement.extends? tokens with
    | some directives =>
      have added := follows_addExtensions library selector directives sound here
      refine added.bind ?_
      rintro added _ after sound here
      exact follows_pure sound ⟨rfl, rfl, here⟩
    | none =>
      cases MixinCall.read? tokens with
      | none =>
        refine Follows.bind (follows_scope sound here (Scope.keeps_asDeclaration library _ _ _)) ?_
        rintro _ declaration after sound ⟨rfl, here⟩
        exact follows_pure sound (progressed_declaration declaration here)
      | some call =>
        rw [← inside]
        refine (follows_callMixin library expands call selector same sound here).bind ?_
        intro progress? output? after sound called
        cases called with
        | found progressed => exact follows_pure sound progressed
        | absent here =>
          -- No mixin has the name: the call is read as a declaration, in the scope that the search left.
          refine Follows.bind (follows_scope sound here (Scope.keeps_asDeclaration library _ _ _)) ?_
          rintro _ declaration after sound ⟨rfl, here⟩
          exact follows_pure sound (progressed_declaration declaration here)

theorem follows_statements (id : sheet.Id) (selector : Tokens) (list : List Tokens)
    (same : Stack.calls (frame :: outer) = calls) (inside : frame.ruleset = some id)
    (sound : run.Sound none) (here : run.context = ⟨frame :: outer, extensions, []⟩) :
    Follows (statements library instantiate id selector list) run
      (Evaluation.evaluateStatements library expand outer selector frame same list)
      (Progressed outer extensions) := by
  induction list generalizing run frame extensions with
  | nil =>
    rw [statements, Evaluation.evaluateStatements]
    exact follows_pure sound (progressed_empty here)
  | cons tokens rest ih =>
    rw [statements, Evaluation.evaluateStatements]
    refine (follows_statement library expands id selector tokens same inside sound here).bind ?_
    rintro first _ after sound ⟨rfl, kept, here⟩
    refine (ih (Evaluation.calls_after first same) (kept.trans inside) sound here).bind ?_
    rintro progress _ after sound ⟨rfl, kept', here⟩
    exact follows_pure sound ⟨rfl, kept'.trans kept, by rw [here, List.append_assoc]; rfl⟩

-- The run and the context are bound here, because each ruleset inside is followed
-- from another run.
theorem follows_ruleset {run : Run sheet} {stack : Stack sheet} {extensions : List Extension}
    (around : Tokens) (id : sheet.Id) (same : stack.calls = calls) (sound : run.Sound none)
    (here : run.context = ⟨stack, extensions, []⟩) :
    Follows (ruleset library instantiate around id) run
      (Evaluation.evaluateRuleset library expand stack same around id)
      (Yielded stack extensions) := by
  rw [ruleset, Evaluation.evaluateRuleset]
  by_cases mixin : (sheet.ruleset id).isMixin
  · rw [if_pos mixin, if_pos mixin]
    exact follows_pure sound (yielded_empty here)
  · rw [if_neg mixin, if_neg mixin]
    have pushed : (run.take (.push (.ofRuleset id))).Sound none :=
      sound.take sound.distinct fun _ _ => nofun
    have inside : (run.take (.push (.ofRuleset id))).context =
        ⟨.ofRuleset id :: stack, extensions, []⟩ := congrArg (Context.push · _) here
    -- The frame of a ruleset is no call, so the chain of calls is that of the stack below.
    have same' : Stack.calls (.ofRuleset id :: stack) = calls := same
    refine Follows.framed ?_ fun _ _ _ popped => popped
    cases (sheet.ruleset id).kind with
    | plain =>
      refine Follows.bind (follows_scope pushed inside (Scope.keeps_holdsAny library _ _)) ?_
      rintro _ holds after sound ⟨rfl, here⟩
      cases holds with
      | false => exact follows_report_pure sound (yielded_empty (by rw [here]; rfl))
      | true =>
        rw [if_pos rfl, if_pos rfl]
        refine Follows.bind (follows_scope sound here (Scope.keeps_interpolateTokens library _ _)) ?_
        rintro _ own after sound ⟨rfl, here⟩
        have added := follows_addExtensions library (Selector.nest around own)
          (sheet.ruleset id).selector.extensions sound here
        refine added.bind ?_
        rintro added _ after sound here
        have output := follows_statements library expands id (Selector.nest around own)
          (sheet.ruleset id).statements same' rfl sound here
        refine output.bind ?_
        rintro progress _ after sound ⟨rfl, _, here⟩
        have inner := follows_nested _ _ (sheet.nested id)
          (fun child _ _ sound here => follows_ruleset (Selector.nest around own) child.val
            (Evaluation.calls_after progress same') sound here) sound here
        refine inner.bind ?_
        rintro yields parts after sound ⟨nodes, _, here⟩
        rw [nodes]
        refine follows_pure sound ⟨rfl, rfl, ?_⟩
        simp [here, Context.after, Context.pop]
    | atBlock keyword params bubbles =>
      refine Follows.bind (follows_scope pushed inside (Scope.keeps_value library _ _)) ?_
      rintro _ params after sound ⟨rfl, here⟩
      have output := follows_statements library expands id (if bubbles then around else [])
        (sheet.ruleset id).statements same' rfl sound here
      refine output.bind ?_
      rintro progress _ after sound ⟨rfl, _, here⟩
      have inner := follows_nested _ _ (sheet.nested id)
        (fun child _ _ sound here => follows_ruleset (if bubbles then around else []) child.val
          (Evaluation.calls_after progress same') sound here) sound here
      refine inner.bind ?_
      rintro yields parts after sound ⟨nodes, _, here⟩
      rw [nodes]
      refine follows_pure sound ⟨rfl, rfl, ?_⟩
      simp [here, Context.after, Context.pop]
termination_by sheet.rulesets.size - id.val
decreasing_by
  all_goals
    have after : id.val < child.val.val := child.property
    have := child.val.isLt
    omega

theorem follows_expand (selector : Tokens) (id : sheet.Id)
    (same : Stack.calls (frame :: outer) = calls) (inside : frame.ruleset = some id)
    (sound : run.Sound none) (here : run.context = ⟨frame :: outer, extensions, []⟩) :
    Follows (Evaluating.expand library instantiate selector id) run
      (Evaluation.expandBody library expand outer selector id frame same)
      fun expansion result after => result = (expansion.yield.toOutput, expansion.locals) ∧
        after.after .pop = ⟨outer, extensions ++ expansion.yield.extensions, expansion.closures⟩ := by
  rw [Evaluating.expand, Evaluation.expandBody]
  refine (follows_statements library expands id selector (sheet.ruleset id).statements same inside
    sound here).bind ?_
  rintro progress _ after sound ⟨rfl, _, here⟩
  have inner := follows_nested _ _ (sheet.nested id)
    (fun child _ _ sound here => follows_ruleset library expands selector child.val
      (Evaluation.calls_after progress same) sound here) sound here
  refine inner.bind ?_
  rintro yields parts after sound ⟨nodes, bare, here⟩
  rw [nodes]
  refine (follows_addClosures ((sheet.nested id).map Subtype.val) sound here).bind_alone ?_
  rintro _ after sound here
  refine Follows.bind (follows_scope sound here (Scope.keeps_evaluateVars library _ _)) ?_
  rintro _ locals after sound ⟨rfl, here⟩
  refine follows_pure sound ⟨?_, ?_⟩
  · have inner : (Yield.concat yields).toOutput = ⟨[], (Yield.concat yields).nodes⟩ :=
      congrArg (Output.mk · _) bare
    exact congrArg (fun output => (progress.yield.toOutput ++ output, locals)) inner.symm
  · -- The run filters the rulesets inside one by one; the closures are the same.
    have closures : closuresOf (progress.after :: outer) ((sheet.nested id).map Subtype.val) =
        Evaluation.closuresIn (progress.after :: outer) id := by
      rw [closuresOf, Evaluation.closuresIn, filter_map, map_map]
      rfl
    rw [here, ← closures]
    exact congrArg (Context.mk outer · _) (List.append_assoc _ _ _)

end

/-- An attempt to expand a definition that is under expansion ends the run. -/
theorem sound_refused {run : Run sheet} (sound : run.Sound none) (call : MixinCall) (id : sheet.Id) :
    (run.take (.attempt call id)).Sound
      (some (.cyclicMixin call.name.position call.displayName)) := by
  refine ⟨sound.fresh, sound.distinct, ?_, ?_⟩
  · intro moment member
    rcases mem_cons.mp member with rfl | earlier
    · exact sound.distinct
    · exact sound.lasting moment earlier
  · intro moment member call' id' attempt active
    rcases mem_cons.mp member with rfl | earlier
    · cases attempt
      rfl
    · cases sound.caught moment earlier call' id' attempt active

/-- A definition that is not under expansion is expanded in a frame of its own. -/
theorem follows_expansion {stack : Stack sheet} (candidate : Candidate sheet) (selector : Tokens)
    {expand : Expand sheet (candidate.ruleset :: stack.calls)} (expands : Expands instantiate expand)
    (idle : candidate.ruleset ∉ stack.expansions) (sound : run.Sound none)
    (here : run.context = ⟨stack, extensions, []⟩) :
    Follows (framed (.ofCall candidate.ruleset candidate.arguments candidate.captured)
        (Evaluating.expand library instantiate selector candidate.ruleset)) run
      (Evaluation.expandBody library expand stack selector candidate.ruleset
        (.ofCall candidate.ruleset candidate.arguments candidate.captured) rfl)
      fun expansion result after => result = (expansion.yield.toOutput, expansion.locals) ∧
        after = ⟨stack, extensions ++ expansion.yield.extensions, expansion.closures⟩ := by
  let frame : Frame sheet := .ofCall candidate.ruleset candidate.arguments candidate.captured
  have distinct : (run.context.after (.push frame)).Distinct := by
    have fresh : candidate.ruleset ∉ run.context.stack.expansions := by
      rw [here]
      exact idle
    exact nodup_cons.mpr ⟨fresh, sound.distinct⟩
  have pushed : (run.take (.push frame)).Sound none := sound.take distinct fun _ _ => nofun
  have inside : (run.take (.push frame)).context = ⟨frame :: stack, extensions, []⟩ :=
    congrArg (Context.push · frame) here
  exact (follows_expand library expands selector candidate.ruleset rfl rfl pushed inside).framed
    fun _ _ _ popped => popped

/-- The frame of the call takes over what an expansion has left behind. -/
theorem follows_handOver {expansion : Expansion sheet} (sound : run.Sound none)
    (here : run.context = ⟨frame :: outer, extensions ++ expansion.yield.extensions,
      expansion.closures⟩) :
    Follows (do
        take .saveClosures
        take (.addReturned expansion.locals)
        return expansion.yield.toOutput : Evaluating sheet Output) run (pure expansion)
      (Expanded frame outer extensions) := by
  have saved : (run.take .saveClosures).Sound none :=
    sound.take sound.distinct.saveClosures fun _ _ => nofun
  have returned : ((run.take .saveClosures).take (.addReturned expansion.locals)).Sound none :=
    saved.take (saved.distinct.addReturned expansion.locals) fun _ _ => nofun
  refine follows_take_bind (follows_take_bind (follows_pure returned ⟨rfl, ?_⟩))
  change (run.context.after .saveClosures).after (.addReturned expansion.locals) = _
  rw [here]
  rfl

/-- The assumption about the expansion of definitions holds for all calls, if the
definitions of `active` are among them. -/
theorem expands_expand (library : Library) {active : List sheet.Id} (calls : List sheet.Id)
    (known : active ⊆ calls) :
    Expands (Evaluating.instantiate library active) fun (stack : Stack sheet)
      (_ : stack.calls = calls) => Evaluation.expand library stack := by
  intro frame outer same call candidate selector extensions run sound here
  -- One more definition is under expansion, in the context and among the calls.
  have deeper (_idle : candidate.ruleset ∉ calls) :=
    expands_expand library (candidate.ruleset :: calls) (List.cons_subset_cons candidate.ruleset known)
  subst same
  change Follows _ run (Evaluation.expand library (frame :: outer) call candidate selector) _
  rw [Evaluating.instantiate, Evaluation.expand]
  refine follows_take_bind (follows_get_bind ?_)
  change Follows (if run.context.stack.isActive candidate.ruleset then _ else _) _ _ _
  have isActive : run.context.stack.isActive candidate.ruleset ↔
      candidate.ruleset ∈ Stack.calls (frame :: outer) := by
    rw [here]
    exact contains_iff_mem
  by_cases open_ : candidate.ruleset ∈ Stack.calls (frame :: outer)
  · rw [if_pos (isActive.mpr open_), dif_pos open_]
    exact .error rfl rfl (sound_refused sound call candidate.ruleset)
  · rw [if_neg (mt isActive.mp open_), dif_neg open_, dif_neg fun inside => open_ (known inside)]
    have idle : candidate.ruleset ∉ Stack.expansions (frame :: outer) :=
      fun member => open_ (Stack.mem_calls_of_mem_expansions member)
    have attempted : (run.take (.attempt call candidate.ruleset)).Sound none := by
      refine sound.take sound.distinct ?_
      intro call' id attempt
      cases attempt
      rw [here]
      exact idle
    refine follows_report_bind ?_
    rw [← bind_pure (Evaluation.expandBody _ _ _ _ _ _ _)]
    refine (follows_expansion candidate selector (deeper open_) idle (attempted.report _ _)
      here).bind ?_
    rintro expansion _ after sound ⟨rfl, here⟩
    exact follows_handOver sound here
termination_by Stack.idle calls
decreasing_by exact Stack.idle_cons_lt _idle

end LessCss.Evaluating
