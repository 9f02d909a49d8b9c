import LessCss.Evaluation.Sheet
import LessCss.Proofs.Spacing.Frames
import LessCss.Proofs.Spacing.Nodes

/-! Evaluation of two sheets that differ in places and in how blanks are cut. Main
statement: both are evaluated to style sheets with the same text, or both are refused. -/

set_option autoImplicit false

namespace LessCss

open List Statement Yield

variable {strict : Bool} {sheet sheet' : Sheet}

/-! ### What is put out -/

structure Yield.Respaced (strict : Bool) (first second : Yield) : Prop where
  declarations : List.Forall₂ Css.Declaration.Respaced first.declarations second.declarations
  nodes : first.nodes.Respaced strict second.nodes
  extensions : List.Forall₂ (Extension.Respaced strict) first.extensions second.extensions

namespace Yield

theorem respaced_empty : Respaced strict empty empty := ⟨.nil, .nil, .nil⟩

theorem Respaced.append {first second more more' : Yield} (same : Respaced strict first second)
    (same' : Respaced strict more more') : Respaced strict (first ++ more) (second ++ more') :=
  ⟨rel_append same.declarations same'.declarations, same.nodes.append same'.nodes,
    rel_append same.extensions same'.extensions⟩

theorem respaced_concat {list list' : List Yield} (same : List.Forall₂ (Respaced strict) list list') :
    Respaced strict (concat list) (concat list') := by
  induction same with
  | nil => exact respaced_empty
  | cons first _ ih => exact first.append ih

theorem Respaced.markImportant {first second : Yield} (same : Respaced strict first second) (important : Bool) :
    Respaced strict (first.markImportant important) (second.markImportant important) := by
  refine ⟨rel_map (fun declaration declaration' each => ?_) same.declarations, same.nodes, same.extensions⟩
  exact ⟨each.property, each.value, congrArg (· || important) each.important⟩

theorem respaced_ofDeclaration {first second : Css.Declaration} (same : first.Respaced second) :
    Respaced strict (ofDeclaration first) (ofDeclaration second) :=
  ⟨.cons same .nil, .nil, .nil⟩

theorem respaced_ofExtensions {first second : List Extension}
    (same : List.Forall₂ (Extension.Respaced strict) first second) :
    Respaced strict (ofExtensions first) (ofExtensions second) :=
  ⟨.nil, .nil, same⟩

end Yield

namespace Evaluation

structure Expansion.Respaced (strict : Bool) (first : Expansion sheet) (second : Expansion sheet') : Prop where
  yield : first.yield.Respaced strict second.yield
  closures : List.Forall₂ Closure.Respaced first.closures second.closures
  locals : first.locals.Respaced false second.locals

structure Progress.Respaced (strict : Bool) {frame : Frame sheet} {frame' : Frame sheet'} (first : Progress frame)
    (second : Progress frame') : Prop where
  after : first.after.Respaced second.after
  yield : first.yield.Respaced strict second.yield

theorem Progress.respaced_still {frame : Frame sheet} {frame' : Frame sheet'} (related : frame.Respaced frame')
    {yield yield' : Yield} (same : yield.Respaced strict yield') :
    Respaced strict (still frame yield) (still frame' yield') :=
  ⟨related, same⟩

def Expand.Respaced (strict : Bool) {calls : List sheet.Id} {calls' : List sheet'.Id} (expand : Expand sheet calls)
    (expand' : Expand sheet' calls') : Prop :=
  ∀ (stack : Stack sheet) (stack' : Stack sheet') (same : stack.calls = calls) (same' : stack'.calls = calls')
    (call call' : MixinCall) (candidate : Candidate sheet) (candidate' : Candidate sheet') (selector selector' : Tokens),
    stack.Respaced stack' → call.Respaced false call' → candidate.Respaced candidate' →
      Tokens.Respaced strict selector selector' →
      Logged.Agree (Expansion.Respaced strict) (expand stack same call candidate selector)
        (expand' stack' same' call' candidate' selector')

/-! ### Values -/

section Values

variable (library : Library) {scope scope' : Scope} {tokens others : Tokens}

section

variable (names : Scope.Respaced false scope scope')

include names

theorem respaced_evaluateVariables {vars vars' : Variables} (related : vars.Respaced false vars') :
    Agree (Variables.Respaced false) (evaluateVariables library scope vars) (evaluateVariables library scope' vars') := by
  refine Agree.bind (Agree.mapM (S := fun entry entry' : String × Tokens =>
    entry'.1 = entry.1 ∧ Tokens.Respaced false entry.2 entry'.2) related ?_) fun entries entries' same => .ok same
  intro entry entry' same
  exact (names.evaluate library same.2).bind fun _ _ value => .ok ⟨same.1, value⟩

theorem respaced_evaluateArguments {call call' : MixinCall} (called : call.Respaced false call') :
    Agree (MixinCall.Respaced false) (evaluateArguments library scope call) (evaluateArguments library scope' call') := by
  refine (Agree.mapM called.arguments fun _ _ => names.evaluate library).bind fun arguments arguments' given => ?_
  refine (respaced_evaluateVariables library names called.named).bind fun named named' same => ?_
  exact .ok ⟨called.name, called.path, given, same, called.important⟩

theorem respaced_evaluateDeclaration {property property' value value' : Tokens}
    (left : Tokens.Respaced false property property') (right : Tokens.Respaced false value value') :
    Agree Css.Declaration.Respaced (evaluateDeclaration library scope property value)
      (evaluateDeclaration library scope' property' value') := by
  obtain ⟨stripped, important⟩ := respaced_stripImportant right
  refine (names.interpolateTokens library left).bind fun property property' left => ?_
  refine (names.evaluate library stripped).bind fun value value' right => ?_
  exact .ok ⟨left.text, right, important⟩

theorem respaced_evaluateAsDeclaration
    (respaced : Tokens.Respaced false tokens others) (reason reason' : Error) :
    Agree Css.Declaration.Respaced (evaluateAsDeclaration library scope tokens reason)
      (evaluateAsDeclaration library scope' others reason') := by
  have parts := respaced_declaration respaced
  unfold evaluateAsDeclaration
  generalize declaration? tokens = first at parts ⊢
  generalize declaration? others = second at parts ⊢
  cases parts with
  | none => exact .error _ _
  | some same => exact respaced_evaluateDeclaration library names same.1 same.2

theorem respaced_evaluateExtends {selector selector' : Tokens}
    (head : Tokens.Respaced strict selector selector') {directives directives' : List Extend}
    (same : List.Forall₂ (Extend.Respaced strict) directives directives') :
    Agree (List.Forall₂ (Extension.Respaced strict)) (evaluateExtends library scope selector directives)
      (evaluateExtends library scope' selector' directives') := by
  refine Agree.mapM same fun directive directive' each => ?_
  obtain ⟨rfl, target, all⟩ := each
  exact (names.interpolateTokens library target).bind fun _ _ target => .ok ⟨rfl, target, head, all⟩

end

end Values

/-! ### Statements -/

section Statements

variable {calls : List sheet.Id} {calls' : List sheet'.Id} {expand : Expand sheet calls} {expand' : Expand sheet' calls'}
  {outer : Stack sheet} {outer' : Stack sheet'} {frame : Frame sheet} {frame' : Frame sheet'} {selector selector' : Tokens}

theorem respaced_expandAll (expands : expand.Respaced strict expand') (around : outer.Respaced outer')
    {call call' : MixinCall} (called : call.Respaced false call') (head : Tokens.Respaced strict selector selector')
    {candidates : List (Candidate sheet)} {candidates' : List (Candidate sheet')}
    (found : List.Forall₂ Candidate.Respaced candidates candidates') (related : frame.Respaced frame')
    (same : Stack.calls (frame :: outer) = calls) (same' : Stack.calls (frame' :: outer') = calls') :
    Logged.Agree (Progress.Respaced strict) (expandAll expand outer call selector frame same candidates)
      (expandAll expand' outer' call' selector' frame' same' candidates') := by
  induction found generalizing frame frame' with
  | nil => exact Logged.agree_pure (Progress.respaced_still related respaced_empty)
  | cons first _ ih =>
    refine (expands _ _ same same' _ _ _ _ _ _ (.cons related around) called first head).bind
      fun expansion expansion' expanded => ?_
    refine (ih ((related.addClosures expanded.closures).addReturned expanded.locals) same same').bind ?_
    intro progress progress' progressed
    exact Logged.agree_pure ⟨progressed.after, expanded.yield.append progressed.yield⟩

theorem respaced_evaluateCall (sheets : Sheet.Respaced strict sheet sheet') (library : Library)
    (expands : expand.Respaced strict expand') (around : outer.Respaced outer') {call call' : MixinCall}
    (called : call.Respaced false call') (head : Tokens.Respaced strict selector selector')
    (related : frame.Respaced frame') (same : Stack.calls (frame :: outer) = calls)
    (same' : Stack.calls (frame' :: outer') = calls') :
    Logged.Agree (Option.Rel (Progress.Respaced strict)) (evaluateCall library expand outer call selector frame same)
      (evaluateCall library expand' outer' call' selector' frame' same') := by
  have stacked : Stack.Respaced (frame :: outer) (frame' :: outer') := .cons related around
  refine (Logged.agree_ofExcept (respaced_evaluateArguments library (stacked.scope sheets) called)).bind ?_
  intro call call' called
  refine (Stack.Respaced.candidates sheets library stacked called related.ruleset).bind fun found found' candidates => ?_
  rw [isEmpty_of_forall₂ candidates, called.important]
  refine Logged.agree_ite (fun _ => ?_) fun _ => ?_
  · exact Logged.agree_report_bind _ _ _ _ (Logged.agree_pure .none)
  · refine (respaced_expandAll expands around called head candidates related same same').bind ?_
    intro progress progress' progressed
    exact Logged.agree_pure (.some ⟨progressed.after, progressed.yield.markImportant _⟩)

theorem respaced_evaluateStatement (sheets : Sheet.Respaced strict sheet sheet') (library : Library)
    (expands : expand.Respaced strict expand') (around : outer.Respaced outer')
    (head : Tokens.Respaced strict selector selector') (related : frame.Respaced frame')
    (same : Stack.calls (frame :: outer) = calls) (same' : Stack.calls (frame' :: outer') = calls')
    {tokens tokens' : Tokens} (respaced : Statement.Respaced strict tokens tokens') :
    Logged.Agree (Progress.Respaced strict) (evaluateStatement library expand outer selector frame same tokens)
      (evaluateStatement library expand' outer' selector' frame' same' tokens') := by
  have names := Stack.Respaced.scope sheets (.cons related around)
  have directed := respaced.directives
  have read := MixinCall.respaced_read respaced.tokens
  -- A declaration, and a call that finds no mixin, which is one in the end.
  have declared (reason reason' : Error) : Logged.Agree (Progress.Respaced strict)
      (Logged.ofExcept (evaluateAsDeclaration library (Stack.scope (frame :: outer)) tokens reason) >>= fun declaration =>
        pure (.still frame (.ofDeclaration declaration)))
      (Logged.ofExcept (evaluateAsDeclaration library (Stack.scope (frame' :: outer')) tokens' reason') >>=
        fun declaration => pure (.still frame' (.ofDeclaration declaration))) := by
    have declared := respaced_evaluateAsDeclaration library names respaced.tokens reason reason'
    refine (Logged.agree_ofExcept declared).bind fun _ _ declaration => ?_
    exact Logged.agree_pure (Progress.respaced_still related (respaced_ofDeclaration declaration))
  unfold evaluateStatement
  dsimp only
  rw [respaced.tokens.headIs]
  refine Logged.agree_ite (fun _ => ?_) fun _ => ?_
  · exact Logged.agree_report_bind _ _ _ _ (Logged.agree_pure (Progress.respaced_still related respaced_empty))
  generalize extends? tokens = first at directed ⊢
  generalize extends? tokens' = second at directed ⊢
  cases directed with
  | some directives =>
    refine (Logged.agree_ofExcept (respaced_evaluateExtends library names head directives)).bind fun _ _ extensions => ?_
    exact Logged.agree_pure (Progress.respaced_still related (respaced_ofExtensions extensions))
  | none =>
    generalize MixinCall.read? tokens = call? at read ⊢
    generalize MixinCall.read? tokens' = call?' at read ⊢
    cases read with
    | none => exact declared _ _
    | some called =>
      refine (respaced_evaluateCall sheets library expands around called head related same same').bind ?_
      intro progress? progress?' progressed
      cases progressed with
      | none => exact declared _ _
      | some progressed => exact Logged.agree_pure progressed

theorem respaced_evaluateStatements (sheets : Sheet.Respaced strict sheet sheet') (library : Library)
    (expands : expand.Respaced strict expand') (around : outer.Respaced outer')
    (head : Tokens.Respaced strict selector selector') {statements statements' : List Tokens}
    (respaced : List.Forall₂ (Statement.Respaced strict) statements statements') (related : frame.Respaced frame')
    (same : Stack.calls (frame :: outer) = calls) (same' : Stack.calls (frame' :: outer') = calls') :
    Logged.Agree (Progress.Respaced strict) (evaluateStatements library expand outer selector frame same statements)
      (evaluateStatements library expand' outer' selector' frame' same' statements') := by
  induction respaced generalizing frame frame' with
  | nil => exact Logged.agree_pure (Progress.respaced_still related respaced_empty)
  | cons first _ ih =>
    refine (respaced_evaluateStatement sheets library expands around head related same same' first).bind ?_
    intro one one' progressed
    refine (ih progressed.after (calls_after one same) (calls_after one' same')).bind fun rest rest' more => ?_
    exact Logged.agree_pure ⟨more.after, progressed.yield.append more.yield⟩

end Statements

/-! ### Rulesets -/

section Rulesets

variable {calls : List sheet.Id} {calls' : List sheet'.Id} {expand : Expand sheet calls} {expand' : Expand sheet' calls'}
  {outer : Stack sheet} {outer' : Stack sheet'} {frame : Frame sheet} {frame' : Frame sheet'} {selector selector' : Tokens}
  {id : sheet.Id} {id' : sheet'.Id}

theorem respaced_evaluateRuleset (sheets : Sheet.Respaced strict sheet sheet') (library : Library)
    (expands : expand.Respaced strict expand') {outer : Stack sheet} {outer' : Stack sheet'}
    (stacked : outer.Respaced outer') (same : outer.calls = calls) (same' : outer'.calls = calls')
    {around around' : Tokens} (head : Tokens.Respaced strict around around') {id : sheet.Id} {id' : sheet'.Id}
    (here : Sheet.At id id') :
    Logged.Agree (Yield.Respaced strict) (evaluateRuleset library expand outer same around id)
      (evaluateRuleset library expand' outer' same' around' id') := by
  have ruleset := sheets.ruleset here
  have kind := ruleset.kind
  have related := Frame.respaced_ofRuleset here
  have names := Stack.Respaced.scope sheets (.cons related stacked)
  -- The nested rulesets come later in the sheet, and see the frame that the statements leave.
  have inside {selector selector' : Tokens} (head : Tokens.Respaced strict selector selector')
      {progress : Progress (Frame.ofRuleset id)} {progress' : Progress (Frame.ofRuleset id')}
      (progressed : progress.Respaced strict progress') :
      Logged.Agree (List.Forall₂ (Yield.Respaced strict))
        ((sheet.nested id).mapM fun child => evaluateRuleset library expand (progress.after :: outer)
          (calls_after progress same) selector child.val)
        ((sheet'.nested id').mapM fun child => evaluateRuleset library expand' (progress'.after :: outer')
          (calls_after progress' same') selector' child.val) := by
    refine Logged.agree_mapM (sheets.nested here) fun child child' there => ?_
    exact respaced_evaluateRuleset sheets library expands (.cons progressed.after stacked) _ _ head there
  rw [evaluateRuleset, evaluateRuleset, sheets.isMixin here]
  refine Logged.agree_ite (fun _ => Logged.agree_pure respaced_empty) fun _ => ?_
  generalize (sheet.ruleset id).kind = kind_ at kind ⊢
  generalize (sheet'.ruleset id').kind = kind' at kind ⊢
  cases kind with
  | plain =>
    refine (Logged.agree_ofExcept (Stack.Respaced.holdsAny library names ruleset.selector.conditions)).bind ?_
    rintro held _ rfl
    refine Logged.agree_ite (fun _ => ?_) fun _ =>
      Logged.agree_report_bind _ _ _ _ (Logged.agree_pure respaced_empty)
    refine (Logged.agree_ofExcept (names.interpolateTokens library ruleset.selector.tokens)).bind fun own own' shown => ?_
    have selected := Selector.respaced_nest head shown
    have extends_ := respaced_evaluateExtends library names selected ruleset.selector.extensions
    refine (Logged.agree_ofExcept extends_).bind fun extensions extensions' directed => ?_
    refine (respaced_evaluateStatements sheets library expands stacked selected ruleset.statements related same same').bind ?_
    intro progress progress' progressed
    refine (inside selected progressed).bind fun nested nested' inner => Logged.agree_pure ?_
    have inner := respaced_concat inner
    refine ⟨.nil, .rule selected progressed.yield.declarations (progressed.yield.nodes.append inner.nodes), ?_⟩
    exact rel_append (rel_append directed progressed.yield.extensions) inner.extensions
  | @atBlock keyword keyword' params params' bubbles twin given =>
    refine (Logged.agree_ofExcept (names.evaluate library given)).bind fun params params' given => ?_
    have selected : Tokens.Respaced strict (if bubbles then around else []) (if bubbles then around' else []) := by
      cases bubbles with
      | true => exact head
      | false => exact .nil
    refine (respaced_evaluateStatements sheets library expands stacked selected ruleset.statements related same same').bind ?_
    intro progress progress' progressed
    refine (inside selected progressed).bind fun nested nested' inner => Logged.agree_pure ?_
    have inner := respaced_concat inner
    have nodes := progressed.yield.nodes.append inner.nodes
    refine ⟨.nil, ?_, rel_append progressed.yield.extensions inner.extensions⟩
    dsimp only
    generalize (if bubbles = true then around else []) = selector at selected ⊢
    generalize (if bubbles = true then around' else []) = selector' at selected ⊢
    rw [selected.isEmpty, isEmpty_of_forall₂ progressed.yield.declarations, twin.text]
    split
    · exact .block _ given progressed.yield.declarations nodes .nil
    · split
      · exact .block _ given .nil nodes .nil
      · exact .block _ given .nil (.rule selected progressed.yield.declarations nodes) .nil
termination_by sheet.rulesets.size - id.val
decreasing_by
  have after : id.val < child.val.val := child.property
  have := child.val.isLt
  omega

theorem respaced_closuresIn (sheets : Sheet.Respaced strict sheet sheet') (stacked : outer.Respaced outer')
    (here : Sheet.At id id') : List.Forall₂ Closure.Respaced (closuresIn outer id) (closuresIn outer' id') := by
  refine rel_map (fun child child' there => ⟨there, stacked.capture sheets there⟩)
    (rel_filter (fun child child' there => ?_) (sheets.nested here))
  change (sheet.ruleset child.val).isMixin = true ↔ (sheet'.ruleset child'.val).isMixin = true
  rw [sheets.isMixin there]

theorem respaced_expandBody (sheets : Sheet.Respaced strict sheet sheet') (library : Library)
    (expands : expand.Respaced strict expand') (stacked : outer.Respaced outer')
    (head : Tokens.Respaced strict selector selector') (here : Sheet.At id id') (related : frame.Respaced frame')
    (same : Stack.calls (frame :: outer) = calls) (same' : Stack.calls (frame' :: outer') = calls') :
    Logged.Agree (Expansion.Respaced strict) (expandBody library expand outer selector id frame same)
      (expandBody library expand' outer' selector' id' frame' same') := by
  have ruleset := sheets.ruleset here
  refine (respaced_evaluateStatements sheets library expands stacked head ruleset.statements related same same').bind ?_
  intro progress progress' progressed
  have inner : Stack.Respaced (progress.after :: outer) (progress'.after :: outer') := .cons progressed.after stacked
  refine (Logged.agree_mapM (sheets.nested here) fun child child' there =>
    respaced_evaluateRuleset sheets library expands inner _ _ head there).bind fun nested nested' yields => ?_
  refine (Logged.agree_ofExcept (respaced_evaluateVariables library (inner.scope sheets) ruleset.vars)).bind ?_
  intro locals locals' left
  exact Logged.agree_pure
    ⟨progressed.yield.append (respaced_concat yields), respaced_closuresIn sheets inner here, left⟩

theorem respaced_expand (sheets : Sheet.Respaced strict sheet sheet') (library : Library) {stack : Stack sheet}
    {stack' : Stack sheet'} (stacked : stack.Respaced stack') {call call' : MixinCall}
    {candidate : Candidate sheet} {candidate' : Candidate sheet'} (found : candidate.Respaced candidate')
    {selector selector' : Tokens} (head : Tokens.Respaced strict selector selector') :
    Logged.Agree (Expansion.Respaced strict) (Evaluation.expand library stack call candidate selector)
      (Evaluation.expand library stack' call' candidate' selector') := by
  have active := stacked.mem_calls found.ruleset
  rw [Evaluation.expand, Evaluation.expand]
  by_cases member : candidate.ruleset ∈ stack.calls
  · rw [dif_pos member, dif_pos (active.mpr member)]
    exact Logged.agree_throw _ _
  · rw [dif_neg member, dif_neg (mt active.mp member)]
    refine Logged.agree_report_bind _ _ _ _ ?_
    have frame := Frame.respaced_ofCall found.ruleset found.arguments found.captured
    refine respaced_expandBody sheets library ?_ stacked head found.ruleset frame _ _
    intro inner inner' calls calls' call call' next next' selector selector' stacked called found head
    exact respaced_expand sheets library stacked found head
termination_by Stack.idle stack.calls
decreasing_by
  rw [calls]
  exact Stack.idle_cons_lt member

end Rulesets

/-! ### Sheets -/

section Entries

variable {frame : Frame sheet} {frame' : Frame sheet'}

theorem respaced_expand_any (sheets : Sheet.Respaced strict sheet sheet') (library : Library) (calls : List sheet.Id)
    (calls' : List sheet'.Id) :
    Expand.Respaced strict ((fun stack _ => expand library stack) : Expand sheet calls)
      ((fun stack _ => expand library stack) : Expand sheet' calls') :=
  fun _ _ _ _ _ _ _ _ _ _ stacked _ found head => respaced_expand sheets library stacked found head

theorem respaced_evaluateAtRule (library : Library) {scope scope' : Scope} (names : Scope.Respaced false scope scope')
    {keyword keyword' : Token} (twin : keyword.Twin keyword') {params params' : Tokens}
    (given : Tokens.Respaced false params params') :
    Agree (Yield.Respaced strict) (evaluateAtRule library scope keyword params)
      (evaluateAtRule library scope' keyword' params') := by
  have stripped : Tokens.Respaced false
      (if keyword.text.toLower = "@import" then stripImportOptions params else params)
      (if keyword.text.toLower = "@import" then stripImportOptions params' else params') := by
    split
    · exact respaced_stripImportOptions given
    · exact given
  unfold evaluateAtRule
  dsimp only
  rw [twin.text]
  exact (names.evaluate library stripped).bind fun _ _ params => .ok ⟨.nil, .statement _ params .nil, .nil⟩

def Entered (strict : Bool) (first : Frame sheet × Yield) (second : Frame sheet' × Yield) : Prop :=
  first.1.Respaced second.1 ∧ first.2.Respaced strict second.2

theorem respaced_evaluateRootCall (sheets : Sheet.Respaced strict sheet sheet') (library : Library)
    (related : frame.Respaced frame') {tokens others : Tokens} (respaced : Tokens.Respaced false tokens others) :
    Logged.Agree (Entered strict) (evaluateRootCall library frame tokens) (evaluateRootCall library frame' others) := by
  have read := MixinCall.respaced_read respaced
  unfold evaluateRootCall
  generalize MixinCall.read? tokens = call? at read ⊢
  generalize MixinCall.read? others = call?' at read ⊢
  cases read with
  | none => exact Logged.agree_throw _ _
  | some called =>
    refine (respaced_evaluateCall sheets library (respaced_expand_any sheets library _ _) .nil called .nil related
      rfl rfl).bind fun progress? progress?' progressed => ?_
    cases progressed with
    | none => exact Logged.agree_throw _ _
    | @some progress progress' progressed =>
      have loose := progressed.yield.declarations
      dsimp only
      generalize progress.yield.declarations = declarations at loose ⊢
      generalize progress'.yield.declarations = declarations' at loose ⊢
      cases loose with
      | nil => exact Logged.agree_pure ⟨progressed.after, progressed.yield⟩
      | cons => exact Logged.agree_throw _ _

theorem respaced_evaluateEntry (sheets : Sheet.Respaced strict sheet sheet') (library : Library)
    (related : frame.Respaced frame') {entry : sheet.Entry} {entry' : sheet'.Entry} (same : entry.Respaced entry') :
    Logged.Agree (Entered strict) (evaluateEntry library frame entry) (evaluateEntry library frame' entry') := by
  have stacked : Stack.Respaced [frame] [frame'] := .cons related .nil
  cases same with
  | ruleset here =>
    refine (respaced_evaluateRuleset sheets library (respaced_expand_any sheets library _ _) stacked rfl rfl .nil here).bind ?_
    exact fun _ _ yields => Logged.agree_pure ⟨related, yields⟩
  | atRule twin given =>
    refine Logged.Agree.bind (R := Yield.Respaced strict)
      (Logged.agree_ofExcept (respaced_evaluateAtRule library (stacked.scope sheets) twin given)) ?_
    exact fun _ _ yields => Logged.agree_pure ⟨related, yields⟩
  | call respaced => exact respaced_evaluateRootCall sheets library related respaced

theorem respaced_evaluateEntries (sheets : Sheet.Respaced strict sheet sheet') (library : Library)
    {entries : List sheet.Entry} {entries' : List sheet'.Entry}
    (same : List.Forall₂ Sheet.Entry.Respaced entries entries') (related : frame.Respaced frame') :
    Logged.Agree (Yield.Respaced strict) (evaluateEntries library frame entries)
      (evaluateEntries library frame' entries') := by
  induction same generalizing frame frame' with
  | nil => exact Logged.agree_pure respaced_empty
  | cons first _ ih =>
    refine (respaced_evaluateEntry sheets library related first).bind fun one one' entered => ?_
    exact (ih entered.1).bind fun _ _ yields => Logged.agree_pure (entered.2.append yields)

end Entries

end Evaluation

/-- Both sheets are evaluated to style sheets with the same text, or both are refused. -/
theorem Sheet.Respaced.evaluate (sheets : Sheet.Respaced strict sheet sheet') (library : Library) :
    Logged.Agree (Css.Stylesheet.Respaced strict) (sheet.evaluate library) (sheet'.evaluate library) := by
  refine (Evaluation.respaced_evaluateEntries sheets library sheets.entries Frame.respaced_root).bind ?_
  intro yield yield' same
  rw [isEmpty_of_forall₂ same.extensions]
  refine Logged.agree_ite (fun _ => Logged.agree_pure same.nodes) fun some_ => ?_
  refine Logged.agree_report_bind _ _ _ _ ?_
  have extensions := same.extensions
  generalize yield.extensions = directives at extensions some_ ⊢
  generalize yield'.extensions = directives' at extensions ⊢
  cases extensions with
  | nil => exact absurd rfl some_
  | cons first rest =>
    -- A directive shows that the reading is the strict one.
    have tight := first.strict
    subst tight
    exact Extension.respaced_propagate (.cons first rest) same.nodes

end LessCss
