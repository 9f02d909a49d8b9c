import LessCss.Proofs.Evaluation.InnermostLevel

/-! Calls with the mark `!important`. Main statement: such a call does what it does
without the mark, but each declaration that it adds to the rule at hand is
important, also one that comes from a further call. The rules and blocks that it
adds stay as they are, and so do the declarations before and behind it. -/

set_option autoImplicit false

namespace LessCss

open List MixinCall

variable {sheet : Sheet}

def MixinCall.marked (call : MixinCall) (important : Bool) : MixinCall := { call with important }

/-! ### The mark plays no part in the search -/

theorem MixinCall.walk_marked (call : MixinCall) (important : Bool) :
    (call.marked important).walk = call.walk :=
  rfl

theorem Sheet.definitions_marked (call : MixinCall) (important : Bool) (offset : Nat) (id : sheet.Id) :
    sheet.definitions (call.marked important) offset id = sheet.definitions call offset id := by
  fun_induction Sheet.definitions sheet call offset id with
  | case1 offset id astray =>
    rw [Sheet.definitions, walk_marked, astray]
  | case2 offset id along =>
    rw [Sheet.definitions, walk_marked, along]
    exact if_pos rfl
  | case3 offset id reached along incomplete ih =>
    rw [Sheet.definitions, walk_marked, along]
    refine (if_neg incomplete).trans ?_
    congr 1
    funext child
    exact ih child

namespace Stack

theorem definitions_marked (stack : Stack sheet) (caller : Option sheet.Id) (call : MixinCall)
    (important : Bool) :
    stack.definitions caller (call.marked important) = stack.definitions caller call := by
  have level (level : sheet.Level) :
      stack.definitionsAt (call.marked important) level = stack.definitionsAt call level := by
    unfold definitionsAt
    simp only [Sheet.definitions_marked]
  simp only [definitions, funext level]

theorem candidatesOf_marked (library : Library) (stack : Stack sheet) (call : MixinCall)
    (important : Bool) (offers : List (sheet.Id × List (Captured sheet))) :
    stack.candidatesOf library (call.marked important) offers = stack.candidatesOf library call offers := by
  induction offers with
  | nil => rfl
  | cons offer rest ih =>
    rw [candidatesOf, candidatesOf, ih]
    rfl

theorem candidates_marked (library : Library) (stack : Stack sheet) (caller : Option sheet.Id)
    (call : MixinCall) (important : Bool) :
    stack.candidates library caller (call.marked important) = stack.candidates library caller call := by
  rw [candidates, candidates, definitions_marked, candidatesOf_marked]
  rfl

end Stack

theorem Logged.run_of_map {α β : Type} {change : α → β} {action : Logged α} {log log' : Log} {result : β}
    (ran : (change <$> action).run log = .ok result log') :
    ∃ value, action.run log = .ok value log' ∧ change value = result := by
  rw [map_eq_pure_bind, EStateM.run_bind] at ran
  cases first : action.run log with
  | error error between => rw [first] at ran; cases ran
  | ok value between =>
    rw [first] at ran
    cases ran
    exact ⟨value, rfl, rfl⟩

def Logged.ran? {α : Type} (action : Logged α) (log : Log) : Option (α × Log) :=
  match action.run log with
  | .ok value log' => some (value, log')
  | .error _ _ => none

theorem Logged.run_of_ran? {α : Type} {action : Logged α} {log log' : Log} {value : α}
    (ran : action.ran? log = some (value, log')) : action.run log = .ok value log' := by
  unfold ran? at ran
  split at ran
  · cases ran
    assumption
  · cases ran

theorem Yield.ext_parts {first second : Yield} (declarations : first.declarations = second.declarations)
    (nodes : first.nodes = second.nodes) (extensions : first.extensions = second.extensions) :
    first = second := by
  rcases first with ⟨⟨_, _⟩, _⟩
  rcases second with ⟨⟨_, _⟩, _⟩
  cases declarations
  cases nodes
  cases extensions
  rfl

theorem Yield.append_assoc (first second third : Yield) :
    first ++ second ++ third = first ++ (second ++ third) :=
  Yield.ext_parts (List.append_assoc ..) (List.append_assoc ..) (List.append_assoc ..)

theorem Yield.empty_append (yield : Yield) : .empty ++ yield = yield :=
  Yield.ext_parts rfl rfl rfl

namespace Evaluation

theorem expand_marked (library : Library) (stack : Stack sheet) (call : MixinCall) (important : Bool) :
    expand library stack (call.marked important) = expand library stack call := by
  funext candidate selector
  rw [expand, expand]
  rfl

theorem evaluateArguments_marked (library : Library) (scope : Scope) (call : MixinCall) (important : Bool) :
    evaluateArguments library scope (call.marked important) =
      (marked · important) <$> evaluateArguments library scope call := by
  unfold evaluateArguments
  simp only [map_bind, map_pure]
  rfl

abbrev expander (library : Library) (calls : List sheet.Id) : Expand sheet calls :=
  fun stack _ => expand library stack

variable (library : Library) {calls : List sheet.Id}

theorem expandAll_marked (outer : Stack sheet) (call : MixinCall) (important : Bool) (selector : Tokens)
    (frame : Frame sheet) (same : Stack.calls (frame :: outer) = calls)
    (candidates : List (Candidate sheet)) :
    expandAll (expander library calls) outer (call.marked important) selector frame same candidates =
      expandAll (expander library calls) outer call selector frame same candidates := by
  induction candidates generalizing frame with
  | nil => rfl
  | cons candidate rest ih =>
    have expanded := congrFun (congrFun (expand_marked library (frame :: outer) call important) candidate) selector
    refine (congrArg (· >>= _) expanded).trans (bind_congr fun expansion => ?_)
    exact congrArg (· >>= _) (ih _ _)

theorem Progress.mark_mark {frame : Frame sheet} (progress : Progress frame) (first second : Bool) :
    (progress.mark first).mark second = progress.mark (first || second) := by
  simp [Progress.mark, Yield.markImportant, Output.markImportant, Function.comp_def, Bool.or_assoc]

/-- The mark changes what a call yields in one way only: the declarations are marked. -/
theorem evaluateCall_marked (outer : Stack sheet) (call : MixinCall) (important : Bool) (selector : Tokens)
    (frame : Frame sheet) (same : Stack.calls (frame :: outer) = calls) :
    evaluateCall library (expander library calls) outer (call.marked important) selector frame same =
      Option.map (Progress.mark important) <$>
        evaluateCall library (expander library calls) outer (call.marked false) selector frame same := by
  unfold evaluateCall
  simp only [evaluateArguments_marked]
  cases evaluateArguments library (Stack.scope (frame :: outer)) call with
  | error error => rfl
  | ok evaluated =>
    change (Stack.candidates library (frame :: outer) frame.ruleset (evaluated.marked important) >>= _) =
      Option.map _ <$> (Stack.candidates library (frame :: outer) frame.ruleset (evaluated.marked false) >>= _)
    rw [Stack.candidates_marked, Stack.candidates_marked, map_bind]
    refine bind_congr fun candidates => ?_
    split
    · rfl
    · rw [expandAll_marked, expandAll_marked, map_bind]
      refine bind_congr fun progress => ?_
      exact congrArg (pure <| some ·) (progress.mark_mark false important).symm

/-! ### Statements -/

def Progress.andThen {frame : Frame sheet} (first : Progress frame) (second : Progress first.after) :
    Progress frame :=
  ⟨second.after, second.kept.trans first.kept, first.yield ++ second.yield⟩

variable (expand : Expand sheet calls) (outer : Stack sheet) (selector : Tokens)

theorem evaluateStatements_append (frame : Frame sheet) (same : Stack.calls (frame :: outer) = calls)
    (front back : List Tokens) :
    evaluateStatements library expand outer selector frame same (front ++ back) =
      evaluateStatements library expand outer selector frame same front >>= fun first =>
        first.andThen <$>
          evaluateStatements library expand outer selector first.after (calls_after first same) back := by
  induction front generalizing frame with
  | nil =>
    have unchanged : (Progress.still frame .empty).andThen = id := by
      funext progress
      exact congrArg (Progress.mk _ _) (Yield.empty_append _)
    rw [evaluateStatements, pure_bind, unchanged]
    exact (id_map _).symm
  | cons tokens rest ih =>
    rw [cons_append, evaluateStatements, evaluateStatements, bind_assoc]
    refine bind_congr fun first => ?_
    rw [ih, bind_assoc, bind_assoc]
    refine bind_congr fun second => ?_
    rw [pure_bind, bind_map_left]
    refine bind_congr fun third => ?_
    exact congrArg (fun yield => pure (Progress.mk _ _ yield)) (Yield.append_assoc ..).symm

/-- A statement that is taken for a call, if the call means a definition. -/
structure Calls (tokens : Tokens) (call : MixinCall) : Prop where
  inside : tokens.headIs .atKeyword = false
  undirected : Statement.extends? tokens = none
  read : read? tokens = some call

theorem run_evaluateStatement_call {frame : Frame sheet} {same : Stack.calls (frame :: outer) = calls}
    {tokens : Tokens} {call : MixinCall} (taken : Calls tokens call) {log log' : Log}
    {progress : Progress frame}
    (called : (evaluateCall library expand outer call selector frame same).run log = .ok (some progress) log') :
    (evaluateStatement library expand outer selector frame same tokens).run log = .ok progress log' := by
  unfold evaluateStatement
  rw [taken.inside, taken.undirected, taken.read]
  dsimp only
  rw [if_neg Bool.false_ne_true, EStateM.run_bind, called]
  rfl

variable {library outer selector}

/-- A call with the mark `!important` among other statements. -/
theorem important_call_marks {frame : Frame sheet} {same : Stack.calls (frame :: outer) = calls}
    {front back : List Tokens} {tokens : Tokens} {call : MixinCall} (taken : Calls tokens call)
    (important : call.important = true) {log log₁ log₂ : Log}
    {before : Progress frame} {called : Progress before.after}
    (ahead : (evaluateStatements library (expander library calls) outer selector frame same front).run log =
      .ok before log₁)
    (expanded : (evaluateCall library (expander library calls) outer call selector before.after
      (calls_after before same)).run log₁ = .ok (some called) log₂) :
    (∀ declaration ∈ called.yield.declarations, declaration.important = true) ∧
    (∃ unmarked : Progress before.after,
      (evaluateCall library (expander library calls) outer (call.marked false) selector before.after
        (calls_after before same)).run log₁ = .ok (some unmarked) log₂ ∧ called = unmarked.mark true) ∧
    ∀ {behind : Progress called.after} {log₃ : Log},
      (evaluateStatements library (expander library calls) outer selector called.after
        (calls_after called (calls_after before same)) back).run log₂ = .ok behind log₃ →
      (evaluateStatements library (expander library calls) outer selector frame same
        (front ++ tokens :: back)).run log = .ok (before.andThen (called.andThen behind)) log₃ := by
  have marked : call = call.marked true := by rw [← important]; rfl
  have asUnmarked := evaluateCall_marked library outer call true selector before.after (calls_after before same)
  rw [← marked] at asUnmarked
  obtain ⟨unmarked, alike, rfl⟩ : ∃ unmarked : Progress before.after,
      (evaluateCall library (expander library calls) outer (call.marked false) selector before.after
        (calls_after before same)).run log₁ = .ok (some unmarked) log₂ ∧ called = unmarked.mark true := by
    rw [asUnmarked] at expanded
    obtain ⟨found, ran, same⟩ := Logged.run_of_map expanded
    obtain ⟨unmarked, rfl, rfl⟩ := Option.map_eq_some_iff.mp same
    exact ⟨unmarked, ran, rfl⟩
  refine ⟨fun declaration member => ?_, ⟨unmarked, alike, rfl⟩, fun {behind log₃} rest => ?_⟩
  · obtain ⟨unmarkedOne, _, rfl⟩ := mem_map.mp member
    exact Bool.or_true _
  · have head := run_evaluateStatement_call library (expander library calls) outer selector taken expanded
    rw [evaluateStatements_append, EStateM.run_bind, ahead]
    dsimp only
    rw [map_eq_pure_bind, EStateM.run_bind, evaluateStatements, EStateM.run_bind, head]
    dsimp only
    rw [EStateM.run_bind, rest]
    rfl

/-! ### Calls from a ruleset outside all others -/

abbrev statementsAtRoot (library : Library) (frame : Frame sheet) (same : Stack.calls [frame, .root] = [])
    (statements : List Tokens) : Logged (Progress frame) :=
  evaluateStatements library (expander library []) [.root] [] frame same statements

def callBetween : String :=
  ".k() \x7b color: red \x7d .m() \x7b top: 1px; .k(); .n \x7b left: 1px \x7d \x7d " ++
    ".a \x7b left: 2px; .m() !important; right: 3px \x7d"

theorem callBetween_marked : ∃ (sheet : Sheet) (rule : sheet.Id) (before called behind : Yield)
    (whole : Progress (.ofRuleset rule)) (log : Log),
    (Sheet.read "in" callBetween).outcome.1.toOption = some sheet ∧
    (statementsAtRoot .empty (.ofRuleset rule) rfl (sheet.ruleset rule).statements).run [] = .ok whole log ∧
    whole.yield = before ++ (called ++ behind) ∧
    before.declarations.map Css.Declaration.important = [false] ∧
    called.declarations.length = 2 ∧ (∀ declaration ∈ called.declarations, declaration.important = true) ∧
    behind.declarations.map Css.Declaration.important = [false] := by
  have checked : ((Sheet.read "in" callBetween).outcome.1.toOption.any fun sheet =>
      sheet.roots.any fun rule =>
        let statements := (sheet.ruleset rule).statements
        statements[1]?.any fun tokens => (read? tokens).any fun call =>
          (statements == statements.take 1 ++ tokens :: statements.drop 2 && !tokens.headIs .atKeyword &&
            (Statement.extends? tokens).isNone && call.important) &&
          ((statementsAtRoot .empty (.ofRuleset rule) rfl (statements.take 1)).ran? []).any fun before =>
            before.1.yield.declarations.map Css.Declaration.important == [false] &&
            ((evaluateCall .empty (expander .empty []) [.root] call [] before.1.after
              (calls_after before.1 rfl)).ran? before.2).any fun found =>
                found.1.any fun called =>
                  called.yield.declarations.length == 2 &&
                  ((statementsAtRoot .empty called.after (calls_after called (calls_after before.1 rfl))
                    (statements.drop 2)).ran? found.2).any fun behind =>
                      behind.1.yield.declarations.map Css.Declaration.important == [false]) = true := by
    decide +kernel
  obtain ⟨sheet, read, checked⟩ := (Option.any_eq_true _ _).mp checked
  obtain ⟨rule, _, checked⟩ := any_eq_true.mp checked
  obtain ⟨tokens, _, checked⟩ := (Option.any_eq_true _ _).mp checked
  obtain ⟨call, isCall, checked⟩ := (Option.any_eq_true _ _).mp checked
  obtain ⟨form, checked⟩ := Bool.and_eq_true_iff.mp checked
  simp only [Bool.and_eq_true, beq_iff_eq, Bool.not_eq_true', Option.isNone_iff_eq_none] at form
  obtain ⟨⟨⟨cut, inside⟩, undirected⟩, important⟩ := form
  obtain ⟨⟨before, log₁⟩, ahead, checked⟩ := (Option.any_eq_true _ _).mp checked
  obtain ⟨flagsBefore, checked⟩ := Bool.and_eq_true_iff.mp checked
  obtain ⟨⟨found, log₂⟩, expanded, checked⟩ := (Option.any_eq_true _ _).mp checked
  obtain ⟨called, rfl, checked⟩ := (Option.any_eq_true _ _).mp checked
  obtain ⟨two, checked⟩ := Bool.and_eq_true_iff.mp checked
  obtain ⟨⟨behind, log₃⟩, rest, flagsBehind⟩ := (Option.any_eq_true _ _).mp checked
  obtain ⟨marks, _, whole⟩ := important_call_marks ⟨inside, undirected, isCall⟩ important
    (Logged.run_of_ran? ahead) (Logged.run_of_ran? expanded)
  refine ⟨sheet, rule, before.yield, called.yield, behind.yield, before.andThen (called.andThen behind),
    log₃, read, ?_, rfl, beq_iff_eq.mp flagsBefore, beq_iff_eq.mp two, marks, beq_iff_eq.mp flagsBehind⟩
  rw [cut]
  exact whole (Logged.run_of_ran? rest)

def ruleDeclarations : Css.Node → List Css.Declaration
  | .rule _ declarations => declarations
  | .statement _ _ => []
  | .block _ _ _ _ => []

def rulesetInside : String :=
  ".m() \x7b .n \x7b color: red \x7d \x7d .a \x7b .m() !important; \x7d"

theorem rulesetInside_unmarked : ∃ (sheet : Sheet) (rule : sheet.Id) (call : MixinCall)
    (called : Progress (.ofRuleset rule)) (log : Log),
    (Sheet.read defaultSourceName rulesetInside).outcome.1.toOption = some sheet ∧
    call.important = true ∧ (callAtRoot .builtin rule call).run [] = .ok (some called) log ∧
    (∃ node ∈ called.yield.nodes, ∃ declaration ∈ ruleDeclarations node, declaration.important = false) ∧
    (compile ⟨false, none⟩ rulesetInside).outcome.1.toOption = some ".a .n \x7b\n  color: red;\n\x7d" := by
  have checked : ((Sheet.read defaultSourceName rulesetInside).outcome.1.toOption.any fun sheet =>
      anyCall .builtin sheet fun rule call _ _ _ =>
        (call.important && (compile ⟨false, none⟩ rulesetInside).outcome.1.toOption ==
          some ".a .n \x7b\n  color: red;\n\x7d") &&
        ((callAtRoot .builtin rule call).ran? []).any fun found => found.1.any fun called =>
          called.yield.nodes.any fun node => (ruleDeclarations node).any fun declaration =>
            !declaration.important) = true := by
    decide +kernel
  obtain ⟨sheet, read, checked⟩ := (Option.any_eq_true _ _).mp checked
  obtain ⟨rule, call, _, _, _, checked⟩ := exists_of_anyCall checked
  obtain ⟨form, checked⟩ := Bool.and_eq_true_iff.mp checked
  obtain ⟨important, compiled⟩ := Bool.and_eq_true_iff.mp form
  obtain ⟨⟨found, log⟩, ran, checked⟩ := (Option.any_eq_true _ _).mp checked
  obtain ⟨called, rfl, checked⟩ := (Option.any_eq_true _ _).mp checked
  obtain ⟨node, inside, checked⟩ := any_eq_true.mp checked
  obtain ⟨declaration, member, unmarked⟩ := any_eq_true.mp checked
  refine ⟨sheet, rule, call, called, log, read, important, Logged.run_of_ran? ran, ?_, beq_iff_eq.mp compiled⟩
  exact ⟨node, inside, declaration, member, Bool.not_eq_true' .. ▸ unmarked⟩

end Evaluation

end LessCss
