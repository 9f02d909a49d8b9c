import LessCss.Proofs.Evaluator.Ensures
import LessCss.Proofs.Evaluator.Sheet

/-! What a run does to its frames, and which values it comes upon. Main statement: a
ruleset and the test of a guard leave the stack as it was, and an expansion leaves it
as it was but for the frame that has asked for it, which gains closures and variables.
The run on a sheet keeps an invariant that its steps keep, and a property of all
evaluated values is one of all values in the style sheet.

This is shown for each part of a run, beginning at any run in which no closure
waits. In the runs of an evaluator no such part begins otherwise. -/

set_option autoImplicit false

namespace LessCss

open List Processing

variable {sheet : Sheet}

namespace Run

variable {run : Run sheet} {frame : Frame sheet} {outer stack : Stack sheet}

def At (stack : Stack sheet) (run : Run sheet) : Prop :=
  run.context.stack = stack ∧ run.context.pending = []

theorem At.push (here : run.At stack) (frame : Frame sheet) : (run.take (.push frame)).At (frame :: stack) :=
  ⟨congrArg _ here.1, here.2⟩

theorem At.pop (here : run.At (frame :: outer)) : (run.take .pop).At outer := ⟨congrArg List.tail here.1, here.2⟩

/-- The innermost frame is this one, but for what calls have left behind in it. -/
def Within (frame : Frame sheet) (outer : Stack sheet) (run : Run sheet) : Prop :=
  ∃ returned closures, run.At ({ frame with returned, closures } :: outer)

theorem At.within (here : run.At (frame :: outer)) : run.Within frame outer := ⟨frame.returned, frame.closures, here⟩

theorem Within.idle (inside : run.Within frame outer) : run.context.pending = [] := by
  obtain ⟨_, _, here⟩ := inside
  exact here.2

theorem Within.trans {returned : Variables} {closures : List (Closure sheet)}
    (inside : run.Within { frame with returned, closures } outer) : run.Within frame outer := by
  obtain ⟨returned', closures', here⟩ := inside
  exact ⟨returned', closures', here⟩

/-- The moments of a run in order: all of them, or all before the directives are
taken to be applied. -/
def Orderly (run : Run sheet) (moments : List (Moment sheet)) : Prop :=
  (run.history = moments ∨ ∃ context, run.history = ⟨.takeExtensions, context⟩ :: moments) ∧
    ∀ moment ∈ moments, moment.Orderly

end Run

namespace Evaluating

variable {α : Type} {library : Library} {inv : Invariant sheet library} {instantiate : Instantiate sheet}
  {before : Run sheet} {frame : Frame sheet} {outer stack : Stack sheet} {call : MixinCall}

/-! ### Parts that leave the stack as it is -/

theorem ensures_value {computation : Setting → Processing α} {value : α → Prop}
    (yields : ∀ scope : Scope, (computation (scope.setting library)).Yields value) (here : before.At stack) :
    Ensures inv (process library computation) before fun result after => value result ∧ after.At stack := by
  refine (ensures_process yields fun _ _ _ same _ => .inl ?_).imp fun _ after _ computed => ?_
  · rw [same, here.2]
  · obtain ⟨holds, same, _⟩ := computed
    exact ⟨holds, by rw [same, here.1], by rw [same, here.2]⟩

theorem ensures_any (computation : Setting → Processing α) (here : before.At stack) :
    Ensures inv (process library computation) before fun _ after => after.At stack :=
  (ensures_value (fun _ => yields_any _) here).imp fun _ _ _ computed => computed.2

theorem ensures_matchGuard {id : sheet.Id} {arguments : Variables} {captured : List (Captured sheet)}
    (opens : inv.Opens (.ofGuard id arguments captured)) (here : before.At stack) :
    Ensures inv (matchGuard library id arguments captured) before fun _ after => after.At stack :=
  (ensures_any _ (here.push _)).framed opens here.2 fun _ _ _ here => here.pop

theorem ensures_candidate (evaluated : call.All inv.value) (id : sheet.Id) {captured : List (Captured sheet)}
    (known : inv.captured captured) (here : before.At stack) :
    Ensures inv (candidate? library call id captured) before fun found after =>
      (∀ candidate ∈ found, inv.Expects candidate) ∧ after.At stack := by
  rw [candidate?]
  cases bound : call.bind? (sheet.ruleset id).selector with
  | none => exact ensures_report_bind (ensures_pure ⟨by rintro _ ⟨⟩, here⟩)
  | some arguments =>
    have fits := inv.binds call id arguments evaluated bound
    have tested : Ensures inv (holdsGuard library id arguments captured) before fun _ after => after.At stack := by
      rw [holdsGuard]
      split
      · exact ensures_matchGuard (.guard fits known) here
      · exact ensures_pure here
    refine tested.bind fun holds between here => ?_
    cases holds with
    | true =>
      refine ensures_pure ⟨fun candidate found => ?_, here⟩
      cases found
      exact ⟨fits, known⟩
    | false => exact ensures_report_bind (ensures_pure ⟨by rintro _ ⟨⟩, here⟩)

theorem ensures_candidatesOf (evaluated : call.All inv.value) (offers : List (sheet.Id × List (Captured sheet)))
    (known : ∀ offer ∈ offers, inv.captured offer.2) (here : before.At stack) :
    Ensures inv (candidatesOf library call offers) before fun found after =>
      (∀ candidate ∈ found, inv.Expects candidate) ∧ after.At stack := by
  induction offers generalizing before with
  | nil => exact ensures_pure ⟨forall_mem_nil _, here⟩
  | cons offer rest ih =>
    obtain ⟨first, others⟩ := forall_mem_cons.mp known
    refine (ensures_candidate evaluated offer.1 first here).bind ?_
    rintro found _ ⟨one, here⟩
    refine (ih others here).bind ?_
    rintro more _ ⟨many, here⟩
    refine ensures_pure ⟨fun candidate member => ?_, here⟩
    rcases mem_append.mp member with inside | inside
    · exact one candidate (Option.mem_toList.mp inside)
    · exact many candidate inside

theorem ensures_candidates (caller : Option sheet.Id) (evaluated : call.All inv.value) (here : before.At stack) :
    Ensures inv (candidates library caller call) before fun found after =>
      (∀ candidate ∈ found, inv.Expects candidate) ∧ after.At stack := by
  rw [candidates]
  refine ensures_get_bind fun kept => ?_
  refine (ensures_candidatesOf evaluated _ (inv.offers before caller call kept) here).bind ?_
  rintro found _ ⟨each, here⟩
  refine ensures_report_bind (ensures_pure ⟨fun candidate member => ?_, here⟩)
  split at member
  · exact each candidate (mem_filter.mp member).1
  · exact each candidate member

/-! ### Directives and closures -/

theorem ensures_addExtensions (selector : Tokens) (directives : List Extend) (here : before.At stack) :
    Ensures inv (addExtensions library selector directives) before fun _ after => after.At stack := by
  induction directives generalizing before with
  | nil => exact ensures_pure here
  | cons directive rest ih =>
    refine (ensures_any _ here).bind fun target between here => ?_
    exact ensures_take_bind trivial trivial (ih here)

theorem ensures_addClosures (ids : List sheet.Id) :
    Ensures inv (addClosures ids) before fun _ after =>
      after.context.stack = before.context.stack ∧
        after.context.pending = before.context.pending ++ closuresOf before.context.stack ids := by
  induction ids generalizing before with
  | nil => exact ensures_pure ⟨rfl, by simp [closuresOf]⟩
  | cons id rest ih =>
    rw [addClosures]
    by_cases mixin : (sheet.ruleset id).isMixin
    · rw [if_pos mixin]
      refine ensures_get_bind fun _ => ensures_take_bind rfl trivial (ih.imp ?_)
      rintro _ after _ ⟨sameStack, pending⟩
      refine ⟨sameStack, ?_⟩
      rw [pending]
      simp [Run.take, Context.after, Context.addClosure, closuresOf, mixin]
    · rw [if_neg mixin]
      refine ih.imp ?_
      rintro _ after _ ⟨sameStack, pending⟩
      refine ⟨sameStack, ?_⟩
      rw [pending]
      simp [closuresOf, mixin]

/-! ### Statements, rulesets and expansions -/

/-- What an expansion leaves to the frame that has asked for it: a closure for
each mixin in the definition, and the variables of the definition. These were
evaluated during the expansion, when its frame was the innermost one. -/
def HandsOver (library : Library) (candidate : Candidate sheet) (frame : Frame sheet)
    (outer : Stack sheet) (before after : Run sheet) : Prop :=
  ∃ (inner evaluated : Run sheet) (callee : Frame sheet) (locals : Variables),
    before.history <:+ inner.history ∧ inner.history <:+ after.history ∧
    inner.context.stack = callee :: frame :: outer ∧ callee.ruleset = some candidate.ruleset ∧
    callee.arguments = candidate.arguments ∧ callee.captured = candidate.captured ∧
    callee.purpose = .expansion ∧
    (process library (·.evaluateVars (sheet.ruleset candidate.ruleset).vars)).run.run inner =
      some (.ok locals, evaluated) ∧
    locals.names = (sheet.ruleset candidate.ruleset).vars.names ∧
    after.At ((frame.addClosures (Evaluation.closuresIn (callee :: frame :: outer)
      candidate.ruleset)).addReturned locals :: outer)

theorem HandsOver.within {candidate : Candidate sheet} {after : Run sheet}
    (handsOver : HandsOver library candidate frame outer before after) : after.Within frame outer := by
  obtain ⟨_, _, _, _, _, _, _, _, _, _, _, _, _, here⟩ := handsOver
  exact ⟨_, _, here⟩

/-- The body of a definition has been evaluated in a frame, at last its variables.
The closures for the mixins in it wait then. -/
def BodyEvaluated (library : Library) (id : sheet.Id) (frame : Frame sheet) (outer : Stack sheet)
    (before : Run sheet) (result : Output × Variables) (after : Run sheet) : Prop :=
  ∃ (inner : Run sheet) (returned : Variables) (closures : List (Closure sheet)),
    before.Later inner ∧ inner.context.stack = { frame with returned, closures } :: outer ∧
    inner.context.pending = Evaluation.closuresIn inner.context.stack id ∧
    (process library (·.evaluateVars (sheet.ruleset id).vars)).run.run inner =
      some (.ok result.2, after) ∧
    after.context = inner.context ∧ inner.Later after

def Instantiates (inv : Invariant sheet library) (instantiate : Instantiate sheet) : Prop :=
  ∀ (call : MixinCall) (selector : Tokens) (candidate : Candidate sheet) (frame : Frame sheet)
    (outer : Stack sheet) (before : Run sheet), call.All inv.value → inv.Expects candidate →
    before.At (frame :: outer) → Ensures inv (instantiate call selector candidate) before fun output after =>
      output.All inv.value ∧ HandsOver library candidate frame outer before after

/-- Rulesets one after the other, if each of them leaves the stack as it was. -/
theorem ensures_nested {ι : Type} (evaluate : ι → Evaluating sheet Css.Stylesheet) (children : List ι)
    (each : ∀ (child : ι) {run : Run sheet}, run.At stack →
      Ensures inv (evaluate child) run fun nodes after => Css.All inv.value nodes ∧ after.At stack)
    (here : before.At stack) :
    Ensures inv (children.mapM evaluate) before fun parts after =>
      Css.All inv.value parts.flatten ∧ after.At stack := by
  induction children generalizing before with
  | nil =>
    rw [mapM_nil]
    exact ensures_pure ⟨.nil, here⟩
  | cons child rest ih =>
    rw [mapM_cons]
    refine (each child here).bind ?_
    rintro nodes _ ⟨all, here⟩
    refine (ih here).bind ?_
    rintro parts _ ⟨all', here⟩
    exact ensures_pure ⟨all.append all', here⟩

section

variable (instantiates : Instantiates inv instantiate)

include instantiates

theorem ensures_instantiateAll (evaluated : call.All inv.value) (selector : Tokens)
    (candidates : List (Candidate sheet)) (expected : ∀ candidate ∈ candidates, inv.Expects candidate)
    (inside : before.Within frame outer) :
    Ensures inv (instantiateAll instantiate call selector candidates) before fun output after =>
      output.All inv.value ∧ after.Within frame outer := by
  induction candidates generalizing before with
  | nil => exact ensures_pure ⟨.empty, inside⟩
  | cons candidate rest ih =>
    obtain ⟨first, others⟩ := forall_mem_cons.mp expected
    obtain ⟨_, _, here⟩ := inside
    refine (instantiates call selector candidate _ outer before evaluated first here).bind ?_
    rintro output between ⟨all, handsOver⟩
    refine (ih others handsOver.within.trans).bind ?_
    rintro output' _ ⟨all', inside⟩
    exact ensures_pure ⟨all.append all', inside⟩

theorem ensures_callMixin (caller : Option sheet.Id) (call : MixinCall) (selector : Tokens)
    (inside : before.Within frame outer) :
    Ensures inv (callMixin library instantiate caller call selector) before fun output? after =>
      (∀ output ∈ output?, output.All inv.value) ∧ after.Within frame outer := by
  obtain ⟨returned, closures, here⟩ := inside
  rw [callMixin]
  refine (ensures_value (fun scope => Setting.all_evaluateCall (inv.values scope) call) here).bind ?_
  rintro call _ ⟨evaluated, here⟩
  refine (ensures_candidates caller evaluated here).bind ?_
  rintro candidates after ⟨expected, here⟩
  have inside : after.Within frame outer := ⟨returned, closures, here⟩
  split
  · exact ensures_report_bind (ensures_pure ⟨by rintro _ ⟨⟩, inside⟩)
  · refine (ensures_instantiateAll instantiates evaluated selector candidates expected inside).bind ?_
    rintro output _ ⟨all, inside⟩
    refine ensures_pure ⟨fun marked found => ?_, inside⟩
    cases found
    exact all.markImportant call.important

theorem ensures_statement (id : sheet.Id) (selector tokens : Tokens) (inside : before.Within frame outer) :
    Ensures inv (statement library instantiate id selector tokens) before fun output after =>
      output.All inv.value ∧ after.Within frame outer := by
  -- Both a plain declaration and a call of no mixin end as a declaration.
  have declares (reason : Error) {between : Run sheet} (inside : between.Within frame outer) :
      Ensures inv (do return ⟨[← process library (·.asDeclaration tokens reason)], []⟩ : Evaluating sheet Output)
        between fun output after => output.All inv.value ∧ after.Within frame outer := by
    obtain ⟨returned, closures, here⟩ := inside
    refine (ensures_value (fun scope => Setting.value_asDeclaration (inv.values scope) tokens reason) here).bind ?_
    rintro declaration _ ⟨value, here⟩
    exact ensures_pure ⟨⟨forall_mem_singleton.mpr value, .nil⟩, returned, closures, here⟩
  rw [statement]
  split
  · exact ensures_report_bind (ensures_pure ⟨.empty, inside⟩)
  · cases Statement.extends? tokens with
    | some directives =>
      obtain ⟨returned, closures, here⟩ := inside
      refine (ensures_addExtensions selector directives here).bind fun _ _ here => ?_
      exact ensures_pure ⟨.empty, returned, closures, here⟩
    | none =>
      cases MixinCall.read? tokens with
      | none => exact declares _ inside
      | some call =>
        refine (ensures_callMixin instantiates (some id) call selector inside).bind ?_
        rintro output? between ⟨all, inside⟩
        cases output? with
        | some output => exact ensures_pure ⟨all output rfl, inside⟩
        | none => exact declares _ inside

theorem ensures_statements (id : sheet.Id) (selector : Tokens) (list : List Tokens)
    (inside : before.Within frame outer) :
    Ensures inv (statements library instantiate id selector list) before fun output after =>
      output.All inv.value ∧ after.Within frame outer := by
  induction list generalizing before with
  | nil => exact ensures_pure ⟨.empty, inside⟩
  | cons tokens rest ih =>
    refine (ensures_statement instantiates id selector tokens inside).bind ?_
    rintro output _ ⟨all, inside⟩
    refine (ih inside).bind ?_
    rintro output' _ ⟨all', inside⟩
    exact ensures_pure ⟨all.append all', inside⟩

/-- A ruleset works in a frame of its own and leaves the stack as it was. -/
theorem ensures_ruleset {before : Run sheet} {stack : Stack sheet} (around : Tokens) (id : sheet.Id)
    (here : before.At stack) :
    Ensures inv (ruleset library instantiate around id) before fun nodes after =>
      Css.All inv.value nodes ∧ after.At stack := by
  rw [ruleset]
  split
  · exact ensures_pure ⟨.nil, here⟩
  · rename_i plain
    -- The nested rulesets come later in the sheet, which is what the recursion goes down on.
    have nested (selector : Tokens) {returned : Variables} {closures : List (Closure sheet)}
        {between : Run sheet}
        (here : between.At ({ Frame.ofRuleset id with returned, closures } :: stack)) :=
      ensures_nested (fun child : { c : sheet.Id // id < c } => ruleset library instantiate selector child.val)
        (sheet.nested id) (fun child _ here => ensures_ruleset selector child.val here) here
    refine Ensures.framed (.ruleset (by simpa using plain)) here.2 ?_ fun nodes after _
      (ended : Css.All inv.value nodes ∧ after.Within (.ofRuleset id) stack) => ?_
    · cases (sheet.ruleset id).kind with
      | plain =>
        refine (ensures_any _ (here.push _)).bind fun holds _ here => ?_
        cases holds with
        | false => exact ensures_report_bind (ensures_pure ⟨.nil, here.within⟩)
        | true =>
          rw [if_pos rfl]
          refine (ensures_any _ here).bind fun own _ here => ?_
          refine (ensures_addExtensions _ _ here).bind fun _ _ here => ?_
          refine (ensures_statements instantiates id _ _ here.within).bind ?_
          rintro output _ ⟨all, returned, closures, here⟩
          refine (nested _ here).bind ?_
          rintro parts _ ⟨all', here⟩
          exact ensures_pure ⟨.rule all.declarations (all.nodes.append all'), returned, closures, here⟩
      | atBlock keyword params bubbles =>
        refine (ensures_value (fun scope => inv.values scope params) (here.push _)).bind ?_
        rintro params _ ⟨front, here⟩
        generalize (if bubbles then around else []) = selector
        refine (ensures_statements instantiates id _ _ here.within).bind ?_
        rintro output _ ⟨all, returned, closures, here⟩
        refine (nested _ here).bind ?_
        rintro parts _ ⟨all', here⟩
        refine ensures_pure ⟨?_, returned, closures, here⟩
        have nodes := all.nodes.append all'
        -- Declarations go into the block or, under a selector, into a rule inside it.
        split
        · exact .block front all.declarations nodes .nil
        · split
          · exact .block front (forall_mem_nil _) nodes .nil
          · exact .block front (forall_mem_nil _) (.rule all.declarations nodes) .nil
    · obtain ⟨all, _, _, here⟩ := ended
      exact ⟨all, here.pop⟩
termination_by sheet.rulesets.size - id.val
decreasing_by
  all_goals
    have after : id.val < child.val.val := child.property
    have := child.val.isLt
    omega

theorem ensures_expand (selector : Tokens) (id : sheet.Id) (callee : frame.callee? = some id)
    (here : before.At (frame :: outer)) :
    Ensures inv (expand library instantiate selector id) before fun result after =>
      (result.1.All inv.value ∧ result.2.All inv.value) ∧
        BodyEvaluated library id frame outer before result after := by
  rw [expand]
  have output := ensures_statements instantiates id selector (sheet.ruleset id).statements here.within
  refine output.withLater.bind ?_
  rintro output _ ⟨later, all, returned, closures, here⟩
  have nested := ensures_nested
    (fun child : { c : sheet.Id // id < c } => ruleset library instantiate selector child.val)
    (sheet.nested id) (fun child _ here => ensures_ruleset instantiates selector child.val here) here
  refine nested.withLater.bind ?_
  rintro parts _ ⟨later', all', here⟩
  refine (ensures_addClosures _).withLater.bind ?_
  rintro _ inner ⟨later'', sameStack, pending⟩
  have stack := sameStack.trans here.1
  have waiting : inner.context.pending = Evaluation.closuresIn inner.context.stack id := by
    rw [pending, here.2, sameStack, closuresOf, Evaluation.closuresIn, filter_map, map_map]
    rfl
  -- The closures wait already: if the variables cannot be evaluated, nothing takes them over.
  have evaluated : Ensures inv (process library (·.evaluateVars (sheet.ruleset id).vars)) inner _ :=
    ensures_process (fun scope => Setting.all_evaluateVars (inv.values scope) _) fun error after fails same history =>
      .inr ⟨id, inner, .refl inner, by rw [stack]; exact callee, ⟨after, fails⟩, by rw [same, waiting], [], history,
        forall_mem_nil _⟩
  refine evaluated.withLater.bind ?_
  rintro locals after ⟨ended, values, same, computed⟩
  refine ensures_pure ⟨⟨all.append ⟨forall_mem_nil _, all'⟩, values⟩, ?_⟩
  exact ⟨inner, returned, closures, later.trans (later'.trans later''), stack, waiting, computed, same, ended⟩

end

/-- Evaluation changes the values of variables, but not which variables there are. -/
theorem names_of_evaluateVars {setting : Setting} {vars locals : Variables}
    {processor processor' : Processor}
    (evaluated : (setting.evaluateVars vars).run.run processor = some (.ok locals, processor')) :
    locals.names = vars.names := by
  obtain ⟨entries⟩ := vars
  rw [Setting.evaluateVars] at evaluated
  obtain ⟨evaluatedEntries, _, mapped, returned⟩ := of_run_bind_ok evaluated
  cases returned
  clear evaluated
  induction entries generalizing evaluatedEntries processor with
  | nil =>
    rw [mapM_nil] at mapped
    cases mapped
    rfl
  | cons entry rest ih =>
    rw [mapM_cons] at mapped
    obtain ⟨first, _, one, mapped⟩ := of_run_bind_ok mapped
    obtain ⟨_, _, _, one⟩ := of_run_bind_ok one
    obtain ⟨others, _, mapped, returned⟩ := of_run_bind_ok mapped
    cases one
    cases returned
    exact congrArg (entry.1 :: ·) (ih others mapped)

theorem names_of_process {vars locals : Variables} {inner evaluated : Run sheet}
    (computed : (process library (·.evaluateVars vars)).run.run inner = some (.ok locals, evaluated)) :
    locals.names = vars.names := by
  obtain ⟨⟨result, processor⟩, ran, same⟩ := Option.map_eq_some_iff.mp computed
  cases same
  exact names_of_evaluateVars ran

/-- The body of a definition is evaluated in a frame of its own, which is popped then. -/
theorem ensures_expansion (instantiates : Instantiates inv instantiate) {candidate : Candidate sheet}
    (expected : inv.Expects candidate) (selector : Tokens) (here : before.At stack) :
    Ensures inv (framed (.ofCall candidate.ruleset candidate.arguments candidate.captured)
        (expand library instantiate selector candidate.ruleset)) before fun result after =>
      (result.1.All inv.value ∧ result.2.All inv.value) ∧ ∃ evaluated, after = evaluated.take .pop ∧
        BodyEvaluated library candidate.ruleset
          (.ofCall candidate.ruleset candidate.arguments candidate.captured) stack before result
          evaluated := by
  let callee : Frame sheet := .ofCall candidate.ruleset candidate.arguments candidate.captured
  have begun : before.Later (before.take (.push callee)) := .take here.2
  refine (ensures_expand instantiates selector candidate.ruleset rfl (here.push callee)).framed
    (.call expected.bound expected.known) here.2 ?_
  rintro result evaluated _ ⟨all, inner, returned, closures, later, rest⟩
  exact ⟨all, evaluated, rfl, inner, returned, closures, begun.trans later, rest⟩

/-- The frame that has asked for an expansion takes over the closures that wait and
the variables. -/
theorem ensures_handOver {waiting : List (Closure sheet)} {locals : Variables} (values : locals.All inv.value)
    (output : Output) (stack : before.context.stack = frame :: outer) (pending : before.context.pending = waiting) :
    Ensures inv (do
        take .saveClosures
        take (.addReturned locals)
        return output : Evaluating sheet Output) before
      fun output' after => output' = output ∧ after.At ((frame.addClosures waiting).addReturned locals :: outer) := by
  refine ensures_take_bind trivial trivial (ensures_take_bind values ?_ (ensures_pure ⟨rfl, ?_⟩))
  · change ((before.context.after .saveClosures).after (.addReturned locals)).pending = []
    simp only [Context.after, Context.saveClosures, Context.addReturned, Context.modifyTop, stack]
  · change ((before.context.after .saveClosures).after (.addReturned locals)).stack = _ ∧
      ((before.context.after .saveClosures).after (.addReturned locals)).pending = []
    simp only [Context.after, Context.saveClosures, Context.addReturned, Context.modifyTop, stack,
      pending, and_self]

/-- An expansion hands over what it has to, however many of the definitions are
under expansion already. -/
theorem instantiates_instantiate (inv : Invariant sheet library) (active : List sheet.Id) :
    Instantiates inv (Evaluating.instantiate library active) := by
  intro call selector candidate frame outer before evaluated expected here
  -- The body is expanded with one definition more under expansion, and there are finitely many.
  have deeper (_fresh : candidate.ruleset ∉ active) :=
    instantiates_instantiate inv (candidate.ruleset :: active)
  rw [Evaluating.instantiate]
  refine ensures_take_bind evaluated here.2 (ensures_get_bind fun _ => ?_)
  split
  · exact ensures_throw here.2
  · by_cases fresh : candidate.ruleset ∈ active
    · rw [dif_pos fresh]
      exact ensures_endless
    · rw [dif_neg fresh]
      refine ensures_report_bind ?_
      let attempted := (before.take (.attempt call candidate.ruleset)).report .trace
        ("展开 mixin " ++ call.displayName)
      have begun : before.Later attempted := .take here.2
      have here' : attempted.At (frame :: outer) := here
      refine (ensures_expansion (deeper fresh) expected selector here').bind ?_
      rintro ⟨output, locals⟩ _ ⟨⟨all, values⟩, evaluated, rfl, inner, returned, closures, later, stack, pending,
        computed, same, later'⟩
      -- The frame of the expansion is popped before its variables are handed to the caller.
      have popped : (evaluated.take .pop).context = inner.context.after .pop :=
        congrArg (Context.after · .pop) same
      have stackPopped : (evaluated.take .pop).context.stack = frame :: outer := by
        rw [popped]
        exact congrArg List.tail stack
      rw [stack] at pending
      have waiting := (congrArg Context.pending popped).trans pending
      refine (ensures_handOver values output stackPopped waiting).imp ?_
      rintro _ after later'' ⟨rfl, here⟩
      have ended : evaluated.Later (evaluated.take .pop) := .take trivial
      exact ⟨all, inner, evaluated, _, locals, (begun.trans later).isSuffix,
        (later'.trans (ended.trans later'')).isSuffix, stack, rfl, rfl, rfl, rfl, computed,
        names_of_process computed, here⟩
termination_by Stack.idle active
decreasing_by exact Stack.idle_cons_lt _fresh

/-! ### Sheets -/

theorem ensures_rootCall (tokens : Tokens) (inside : before.Within frame outer) :
    Ensures inv (rootCall library tokens) before fun nodes after =>
      Css.All inv.value nodes ∧ after.Within frame outer := by
  rw [rootCall]
  cases MixinCall.read? tokens with
  | none => exact ensures_throw inside.idle
  | some call =>
    have called := ensures_callMixin (instantiates_instantiate inv []) none call [] inside
    refine called.bind ?_
    rintro output? _ ⟨all, inside⟩
    cases output? with
    | none => exact ensures_throw inside.idle
    | some output =>
      dsimp only
      cases output.declarations with
      | nil => exact ensures_pure ⟨(all output rfl).nodes, inside⟩
      | cons declaration rest => exact ensures_throw inside.idle

theorem ensures_entry (item : sheet.Entry) (inside : before.Within frame outer) :
    Ensures inv (entry library item) before fun nodes after =>
      Css.All inv.value nodes ∧ after.Within frame outer := by
  cases item with
  | ruleset id =>
    obtain ⟨returned, closures, here⟩ := inside
    refine (ensures_ruleset (instantiates_instantiate inv []) [] id here).imp ?_
    rintro nodes _ _ ⟨all, here⟩
    exact ⟨all, returned, closures, here⟩
  | atRule keyword params =>
    obtain ⟨returned, closures, here⟩ := inside
    refine (ensures_value (fun scope => inv.values scope _) here).bind ?_
    rintro _ _ ⟨front, here⟩
    exact ensures_pure ⟨.statement front .nil, returned, closures, here⟩
  | call tokens => exact ensures_rootCall tokens inside

theorem ensures_entries (list : List sheet.Entry) (inside : before.Within frame outer) :
    Ensures inv (entries library list) before fun nodes after =>
      Css.All inv.value nodes ∧ after.Within frame outer := by
  induction list generalizing before with
  | nil => exact ensures_pure ⟨.nil, inside⟩
  | cons item rest ih =>
    refine (ensures_entry item inside).bind ?_
    rintro _ _ ⟨all, inside⟩
    refine (ih inside).bind ?_
    rintro _ _ ⟨all', inside⟩
    exact ensures_pure ⟨all.append all', inside⟩

theorem unchanged_of_ofLogged {action : Logged α} {after : Run sheet} {outcome : Except Error α}
    (ends : (ofLogged action).run.run before = some (outcome, after)) :
    ∃ log, after = { before with log } ∧ ∀ value, outcome = .ok value → action.run before.log = .ok value log := by
  change ofLogged action before = _ at ends
  rw [ofLogged] at ends
  cases found : action.run before.log with
  | ok value log =>
    rw [found] at ends
    cases ends
    exact ⟨log, rfl, by rintro _ ⟨⟩; rfl⟩
  | error error log =>
    rw [found] at ends
    cases ends
    exact ⟨log, rfl, by rintro _ ⟨⟩⟩

/-- What follows the entries of a sheet takes the directives and no other step. -/
theorem orderly_stylesheet (inv : Invariant sheet library) {outcome : Except Error Css.Stylesheet}
    {processor : Processor} {run : Run sheet} (kept : inv.run (.start processor))
    (ends : (stylesheet library sheet).run.run (.start processor) = some (outcome, run)) :
    (inv.run run ∧ Returns outcome (Css.All inv.value)) ∧ (∃ moments, run.Orderly moments) ∧
      (∀ nodes, outcome = .ok nodes → run.context.pending = []) ∧
      ∀ error, outcome = .error error → (Run.start processor).Breaks library error run := by
  have start : (Run.start processor : Run sheet).At [.root] := ⟨rfl, rfl⟩
  have ensures : Ensures inv (entries library sheet.entries) (.start processor) _ :=
    ensures_entries sheet.entries start.within
  rw [stylesheet] at ends
  cases begun : (entries library sheet.entries).run.run (.start processor) with
  | none =>
    rw [run_bind_none begun] at ends
    cases ends
  | some ended =>
    obtain ⟨result, between⟩ := ended
    obtain ⟨kept, ⟨moments, history, orderly⟩, holds, breaks⟩ := ensures kept result between begun
    rw [show (Run.start processor : Run sheet).history = [] from rfl, append_nil] at history
    cases result with
    | error error =>
      rw [run_bind_error begun] at ends
      cases ends
      refine ⟨⟨kept, returns_error⟩, ⟨moments, .inl history, orderly⟩, by rintro _ ⟨⟩, ?_⟩
      rintro _ ⟨⟩
      exact breaks error rfl
    | ok nodes =>
      rw [run_bind_ok begun] at ends
      obtain ⟨all, inside⟩ := holds nodes rfl
      have idle : (between.take .takeExtensions).context.pending = [] := inside.idle
      -- Taking the directives is the last step; what follows only reports.
      obtain ⟨log, rfl, values⟩ : ∃ log, run = { between.take .takeExtensions with log } ∧
          Returns outcome (Css.All inv.value) := by
        change (ite _ _ _ : Evaluating sheet _).run.run (between.take .takeExtensions) = _ at ends
        split at ends
        · cases ends
          exact ⟨between.log, rfl, returns_ok all⟩
        · change (ofLogged _).run.run ((between.take .takeExtensions).report _ _) = _ at ends
          obtain ⟨log, rfl, done⟩ := unchanged_of_ofLogged ends
          exact ⟨log, rfl, fun nodes same => Extension.all_repeatPass _ _ _ all _ _ _ (done nodes same)⟩
      have taken := inv.steady _ between.processor log (inv.step between .takeExtensions kept trivial)
      exact ⟨⟨taken, values⟩, ⟨moments, .inr ⟨_, congrArg (_ :: ·) history⟩, orderly⟩, fun _ _ => idle,
        fun _ _ => .inl idle⟩

end Evaluating

end LessCss
