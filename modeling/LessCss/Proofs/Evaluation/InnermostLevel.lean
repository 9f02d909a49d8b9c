import LessCss.Compile
import LessCss.Proofs.Evaluation.LexicalScope
import LessCss.Proofs.Yields

/-! Where a call finds its definitions. Main statement: the innermost level that
offers a definition with the called path decides. If one of its definitions fits,
the call expands exactly those that fit, in the order in which they are found,
and only the guarded ones if there are any among them. If none fits, the call
means nothing, whatever the levels further out offer. -/

set_option autoImplicit false

namespace LessCss

open List Candidate

variable {sheet : Sheet}

namespace Stack

/-- What a definition that a level offers is to a call: nothing if its parameters
do not take the arguments or its guard does not hold. -/
def fit? (library : Library) (stack : Stack sheet) (call : MixinCall)
    (offer : sheet.Id × List (Captured sheet)) : Except Error (Option (Candidate sheet)) :=
  match call.bind? (sheet.ruleset offer.1).selector with
  | none => .ok none
  | some arguments => do
    let scope := Stack.scope (.ofGuard offer.1 arguments offer.2 :: stack)
    if ← scope.holdsAny library (sheet.ruleset offer.1).selector.conditions then
      return some ⟨offer.1, arguments, offer.2, (sheet.ruleset offer.1).selector.isGuarded⟩
    else return none

def Fits (library : Library) (stack : Stack sheet) (call : MixinCall)
    (offer : sheet.Id × List (Captured sheet)) : Prop :=
  ∃ candidate, stack.fit? library call offer = .ok (some candidate)

def Testable (library : Library) (stack : Stack sheet) (call : MixinCall)
    (offer : sheet.Id × List (Captured sheet)) : Prop :=
  ∃ fit, stack.fit? library call offer = .ok fit

def fitting (library : Library) (stack : Stack sheet) (call : MixinCall)
    (offers : List (sheet.Id × List (Captured sheet))) : List (Candidate sheet) :=
  offers.filterMap fun offer => (stack.fit? library call offer).toOption.join

end Stack

/-- The guarded ones if there are any, else all. -/
def Candidate.preferred (candidates : List (Candidate sheet)) : List (Candidate sheet) :=
  if candidates.any guarded then candidates.filter guarded else candidates

theorem Candidate.preferred_eq_nil {candidates : List (Candidate sheet)} :
    preferred candidates = [] ↔ candidates = [] := by
  unfold preferred
  split
  · rename_i guarded
    obtain ⟨candidate, member, holds⟩ := any_eq_true.mp guarded
    refine ⟨fun none_ => ?_, fun none_ => by rw [none_]; rfl⟩
    exact absurd holds (filter_eq_nil_iff.mp none_ candidate member)
  · exact Iff.rfl

namespace Stack

variable {library : Library} {stack : Stack sheet} {call : MixinCall}
  {offers : List (sheet.Id × List (Captured sheet))}

theorem fitting_eq_nil : stack.fitting library call offers = [] ↔
    ∀ offer ∈ offers, ¬ stack.Fits library call offer := by
  unfold fitting Fits
  rw [filterMap_eq_nil_iff]
  refine forall₂_congr fun offer _ => ?_
  cases stack.fit? library call offer with
  | error error => simp [Except.toOption]
  | ok fit => cases fit <;> simp [Except.toOption]

/-- The search goes past the levels that have no definition with the called path. -/
theorem definitions_of_levels {caller : Option sheet.Id} {inner beyond : List sheet.Level}
    {level : sheet.Level} (levels : sheet.levels caller = inner ++ level :: beyond)
    (unnamed : ∀ nearer ∈ inner, stack.definitionsAt call nearer = [])
    (named : stack.definitionsAt call level ≠ []) :
    stack.definitions caller call = stack.definitionsAt call level := by
  have skipped : (inner.map (stack.definitionsAt call)).find? (fun found => !found.isEmpty) = none := by
    rw [List.find?_eq_none]
    intro found member
    obtain ⟨nearer, inside, rfl⟩ := mem_map.mp member
    simp [unnamed nearer inside]
  have here : (!(stack.definitionsAt call level).isEmpty) = true := by simpa using named
  rw [definitions, levels, map_append, map_cons, List.find?_append, skipped, Option.none_or,
    List.find?_cons, here]
  rfl

theorem run_candidate? {offer : sheet.Id × List (Captured sheet)} {fit : Option (Candidate sheet)}
    (tested : stack.fit? library call offer = .ok fit) (log : Log) :
    ∃ log', (stack.candidate? library call offer.1 offer.2).run log = .ok fit log' := by
  rw [fit?] at tested
  rw [candidate?]
  dsimp only
  cases bound : call.bind? (sheet.ruleset offer.1).selector with
  | none =>
    rw [bound] at tested
    cases tested
    exact ⟨_, rfl⟩
  | some arguments =>
    rw [bound] at tested
    dsimp only at tested ⊢
    -- An error of the guard would have ended the test, so the guard has a value here.
    cases guard : (Stack.scope (.ofGuard offer.1 arguments offer.2 :: stack)).holdsAny library
        (sheet.ruleset offer.1).selector.conditions with
    | error error =>
      rw [guard] at tested
      cases tested
    | ok holds =>
      rw [guard] at tested
      cases holds with
      | true | false =>
        cases tested
        exact ⟨_, rfl⟩

theorem run_candidatesOf (testable : ∀ offer ∈ offers, stack.Testable library call offer) (log : Log) :
    ∃ log', (stack.candidatesOf library call offers).run log =
      .ok (stack.fitting library call offers) log' := by
  induction offers generalizing log with
  | nil => exact ⟨log, rfl⟩
  | cons offer rest ih =>
    obtain ⟨⟨fit, tested⟩, others⟩ := forall_mem_cons.mp testable
    obtain ⟨between, first⟩ := run_candidate? tested log
    obtain ⟨log', second⟩ := ih others between
    refine ⟨log', ?_⟩
    rw [candidatesOf, EStateM.run_bind, first]
    dsimp only
    rw [EStateM.run_bind, second]
    unfold fitting
    rw [filterMap_cons, tested]
    cases fit <;> rfl

theorem run_candidates {caller : Option sheet.Id} (found : stack.definitions caller call = offers)
    (testable : ∀ offer ∈ offers, stack.Testable library call offer) (log : Log) :
    ∃ log', (stack.candidates library caller call).run log =
      .ok (preferred (stack.fitting library call offers)) log' := by
  obtain ⟨between, ran⟩ := run_candidatesOf testable log
  rw [candidates, found, EStateM.run_bind, ran]
  exact ⟨_, rfl⟩

end Stack

namespace Evaluation

variable {calls : List sheet.Id} {library : Library}

def Progress.mark {frame : Frame sheet} (important : Bool) (progress : Progress frame) : Progress frame :=
  { progress with yield := progress.yield.markImportant important }

/-- A call expands the definitions that it means and no others, or has no result if there are none. -/
theorem run_evaluateCall (expand : Expand sheet calls) {outer : Stack sheet} {frame : Frame sheet}
    (same : Stack.calls (frame :: outer) = calls) {call evaluated : MixinCall} (selector : Tokens)
    (arguments : evaluateArguments library (Stack.scope (frame :: outer)) call = .ok evaluated)
    {log between : Log} {candidates : List (Candidate sheet)}
    (found : (Stack.candidates library (frame :: outer) frame.ruleset evaluated).run log =
      .ok candidates between) :
    ∃ log', (evaluateCall library expand outer call selector frame same).run log =
      if candidates.isEmpty then .ok none log'
      else ((some ∘ Progress.mark evaluated.important) <$>
        expandAll expand outer evaluated selector frame same candidates).run log' := by
  rw [evaluateCall, arguments]
  change ∃ log', ((Stack.candidates library (frame :: outer) frame.ruleset evaluated >>= _).run log) = _
  rw [EStateM.run_bind, found]
  dsimp only
  by_cases none_ : candidates.isEmpty
  · rw [if_pos none_]
    exact ⟨_, by rw [if_pos none_]; rfl⟩
  · rw [if_neg none_]
    exact ⟨between, by rw [if_neg none_]; rfl⟩

/-- The innermost level with a definition that has the called path decides. If a
definition there fits, the call expands the preferred ones of those that fit, one
after the other; if none fits, the call has no result. -/
theorem innermost_named_level_decides (expand : Expand sheet calls) {outer : Stack sheet}
    {frame : Frame sheet} (same : Stack.calls (frame :: outer) = calls) {call evaluated : MixinCall}
    (selector : Tokens)
    (arguments : evaluateArguments library (Stack.scope (frame :: outer)) call = .ok evaluated)
    {inner beyond : List sheet.Level} {level : sheet.Level}
    (levels : sheet.levels frame.ruleset = inner ++ level :: beyond)
    (unnamed : ∀ nearer ∈ inner, Stack.definitionsAt (frame :: outer) evaluated nearer = [])
    {offers : List (sheet.Id × List (Captured sheet))}
    (offered : Stack.definitionsAt (frame :: outer) evaluated level = offers) (named : offers ≠ [])
    (testable : ∀ offer ∈ offers, Stack.Testable library (frame :: outer) evaluated offer) (log : Log) :
    ((∃ offer ∈ offers, Stack.Fits library (frame :: outer) evaluated offer) →
      ∃ candidates log', candidates ≠ [] ∧
        candidates = preferred (Stack.fitting library (frame :: outer) evaluated offers) ∧
        (evaluateCall library expand outer call selector frame same).run log =
          ((some ∘ Progress.mark evaluated.important) <$>
            expandAll expand outer evaluated selector frame same candidates).run log') ∧
    ((∀ offer ∈ offers, ¬ Stack.Fits library (frame :: outer) evaluated offer) →
      ∃ log', (evaluateCall library expand outer call selector frame same).run log = .ok none log') := by
  have found := Stack.definitions_of_levels levels unnamed (offered ▸ named)
  obtain ⟨between, ran⟩ := Stack.run_candidates (found.trans offered) testable log
  obtain ⟨log', called⟩ := run_evaluateCall expand same selector arguments ran
  constructor
  · rintro ⟨offer, member, fits⟩
    have some_ : preferred (Stack.fitting library (frame :: outer) evaluated offers) ≠ [] := by
      rw [Ne, preferred_eq_nil, Stack.fitting_eq_nil]
      exact fun none_ => none_ offer member fits
    rw [if_neg (by simpa using some_)] at called
    exact ⟨_, log', some_, rfl, called⟩
  · intro misfits
    have none_ : preferred (Stack.fitting library (frame :: outer) evaluated offers) = [] := by
      rwa [preferred_eq_nil, Stack.fitting_eq_nil]
    rw [none_] at called
    exact ⟨log', called⟩

/-! ### Calls from rulesets outside all others -/

abbrev atRoot (rule : sheet.Id) : Stack sheet := [.ofRuleset rule, .root]

def callAtRoot (library : Library) (rule : sheet.Id) (call : MixinCall) :
    Logged (Option (Progress (.ofRuleset rule))) :=
  evaluateCall library (fun stack _ => Evaluation.expand library stack) [.root] call [] (.ofRuleset rule) rfl

/-- The search from a ruleset outside all others goes through two levels. -/
theorem levels_root {rule : sheet.Id} (root : rule ∈ sheet.roots)
    (plain : (sheet.ruleset rule).isMixin = false) :
    sheet.levels (some rule) = [⟨some rule, none⟩, ⟨none, some rule⟩] := by
  obtain ⟨entry, member, same⟩ := mem_filterMap.mp root
  cases entry with
  | ruleset id =>
    cases same
    simp [Sheet.levels, Sheet.ancestors_root member, plain]
  | atRule | call => cases same

abbrev CallCondition (sheet : Sheet) :=
  (rule : sheet.Id) → (call evaluated : MixinCall) → (near far : List (sheet.Id × List (Captured sheet))) → Bool

def anyCall (library : Library) (sheet : Sheet) (condition : CallCondition sheet) : Bool :=
  sheet.roots.any fun rule => !(sheet.ruleset rule).isMixin &&
    (sheet.ruleset rule).statements.any fun statement =>
      (MixinCall.read? statement).any fun call =>
        (evaluateArguments library (atRoot rule).scope call).toOption.any fun evaluated =>
          condition rule call evaluated ((atRoot rule).definitionsAt evaluated ⟨some rule, none⟩)
            ((atRoot rule).definitionsAt evaluated ⟨none, some rule⟩)

theorem exists_of_anyCall {library : Library} {condition : CallCondition sheet}
    (found : anyCall library sheet condition = true) :
    ∃ rule call evaluated, sheet.levels (some rule) = [⟨some rule, none⟩, ⟨none, some rule⟩] ∧
      evaluateArguments library (atRoot rule).scope call = .ok evaluated ∧
      condition rule call evaluated ((atRoot rule).definitionsAt evaluated ⟨some rule, none⟩)
        ((atRoot rule).definitionsAt evaluated ⟨none, some rule⟩) = true := by
  obtain ⟨rule, root, found⟩ := any_eq_true.mp found
  obtain ⟨plain, found⟩ := Bool.and_eq_true_iff.mp found
  obtain ⟨statement, _, found⟩ := any_eq_true.mp found
  obtain ⟨call, _, found⟩ := (Option.any_eq_true _ _).mp found
  obtain ⟨evaluated, arguments, holds⟩ := (Option.any_eq_true _ _).mp found
  refine ⟨rule, call, evaluated, levels_root root (by simpa using plain), ?_, holds⟩
  exact ok_of_toOption arguments

def guardedOverload : String :=
  ".m(@a) when (@a > 1px) \x7b width: @a \x7d .m(@a) \x7b top: 1px \x7d .x \x7b .m(2px); \x7d"

theorem guardedOverload_decided : ∃ (sheet : Sheet) (rule : sheet.Id) (call evaluated : MixinCall)
    (candidate : Candidate sheet) (log : Log),
    (Sheet.read "in" guardedOverload).outcome.1.toOption = some sheet ∧
    sheet.levels (some rule) = [⟨some rule, none⟩, ⟨none, some rule⟩] ∧
    (atRoot rule).definitionsAt evaluated ⟨some rule, none⟩ = [] ∧
    ((atRoot rule).definitionsAt evaluated ⟨none, some rule⟩).length = 2 ∧
    candidate.guarded = true ∧
    (callAtRoot .empty rule call).run [] = ((some ∘ Progress.mark evaluated.important) <$>
      expandAll (fun stack _ => Evaluation.expand .empty stack) [.root] evaluated [] (.ofRuleset rule) rfl
        [candidate]).run log := by
  have checked : ((Sheet.read "in" guardedOverload).outcome.1.toOption.any fun sheet =>
      anyCall .empty sheet fun rule _ evaluated near far => near.isEmpty && far.length == 2 &&
        (far.all fun offer => ((atRoot rule).fit? .empty evaluated offer).toOption.isSome) &&
        (preferred ((atRoot rule).fitting .empty evaluated far)).map guarded == [true]) =
      true := by
    decide +kernel
  obtain ⟨sheet, read, checked⟩ := (Option.any_eq_true _ _).mp checked
  obtain ⟨rule, call, evaluated, levels, arguments, checked⟩ := exists_of_anyCall checked
  simp only [Bool.and_eq_true, beq_iff_eq, List.isEmpty_iff, all_eq_true] at checked
  obtain ⟨⟨⟨near, far⟩, tested⟩, guarded⟩ := checked
  obtain ⟨candidate, _, alone, isGuarded, none_⟩ := map_eq_cons_iff.mp guarded
  cases map_eq_nil_iff.mp none_
  have testable (offer : sheet.Id × List (Captured sheet))
      (member : offer ∈ (atRoot rule).definitionsAt evaluated ⟨none, some rule⟩) :
      (atRoot rule).Testable .empty evaluated offer := by
    obtain ⟨fit, found⟩ := Option.isSome_iff_exists.mp (tested offer member)
    exact ⟨fit, ok_of_toOption found⟩
  have fits : ∃ offer ∈ (atRoot rule).definitionsAt evaluated ⟨none, some rule⟩,
      (atRoot rule).Fits .empty evaluated offer := by
    refine Classical.byContradiction fun misfits => ?_
    rw [preferred_eq_nil.mpr (Stack.fitting_eq_nil.mpr fun offer member fits =>
      misfits ⟨offer, member, fits⟩)] at alone
    cases alone
  have named : (atRoot rule).definitionsAt evaluated ⟨none, some rule⟩ ≠ [] := by
    rintro none_
    rw [none_] at far
    cases far
  have split : sheet.levels (Frame.ofRuleset rule).ruleset =
      [⟨some rule, none⟩] ++ ⟨none, some rule⟩ :: [] := levels
  obtain ⟨candidates, log, _, rfl, ran⟩ := (innermost_named_level_decides
    (fun stack _ => Evaluation.expand .empty stack) rfl [] arguments split
    (forall_mem_singleton.mpr near) rfl named testable []).1 fits
  rw [alone] at ran
  exact ⟨sheet, rule, call, evaluated, candidate, log, read, levels, near, far, isGuarded, ran⟩

def hiddenOverload : String :=
  ".m(@a) \x7b width: @a \x7d .x \x7b .m() \x7b height: 1px \x7d .m(2px); \x7d"

theorem hiddenOverload_unreached : ∃ (sheet : Sheet) (rule : sheet.Id) (call evaluated : MixinCall)
    (offer : sheet.Id × List (Captured sheet)),
    (Sheet.read defaultSourceName hiddenOverload).outcome.1.toOption = some sheet ∧
    sheet.levels (some rule) = [⟨some rule, none⟩, ⟨none, some rule⟩] ∧
    evaluateArguments .builtin (atRoot rule).scope call = .ok evaluated ∧
    offer ∈ (atRoot rule).definitionsAt evaluated ⟨none, some rule⟩ ∧
    (atRoot rule).Fits .builtin evaluated offer ∧
    ((callAtRoot .builtin rule call).outcome.1.toOption.any fun result => result.isNone) = true ∧
    (compile ⟨false, none⟩ hiddenOverload).outcome.1.toOption = none := by
  have checked : ((Sheet.read defaultSourceName hiddenOverload).outcome.1.toOption.any fun sheet =>
      anyCall .builtin sheet fun rule call evaluated _ far =>
        (far.any fun offer => ((atRoot rule).fit? .builtin evaluated offer).toOption.join.isSome) &&
        ((callAtRoot .builtin rule call).outcome.1.toOption.any fun result => result.isNone) &&
        (compile ⟨false, none⟩ hiddenOverload).outcome.1.toOption.isNone) = true := by
    decide +kernel
  obtain ⟨sheet, read, checked⟩ := (Option.any_eq_true _ _).mp checked
  obtain ⟨rule, call, evaluated, levels, arguments, checked⟩ := exists_of_anyCall checked
  simp only [Bool.and_eq_true, any_eq_true, Option.isNone_iff_eq_none] at checked
  obtain ⟨⟨⟨offer, member, found⟩, nothing⟩, fails⟩ := checked
  obtain ⟨candidate, found⟩ := Option.isSome_iff_exists.mp found
  have fits := ok_of_toOption (Option.join_eq_some_iff.mp found)
  exact ⟨sheet, rule, call, evaluated, offer, read, levels, arguments, member, ⟨candidate, fits⟩, nothing, fails⟩

end Evaluation

end LessCss
