import LessCss.Evaluation.Candidate
import LessCss.Proofs.Sheet.Forest
import LessCss.Proofs.Spacing.Sheets
import LessCss.Proofs.Spacing.Values

/-! Frames over two sheets that differ in places and in how blanks are cut. Main statements:
in related stacks the same names have the same values, and a call means the same
definitions. -/

set_option autoImplicit false

namespace LessCss

open List Logged

variable {strict : Bool} {sheet sheet' : Sheet}

/-! ### Rulesets -/

namespace Sheet

def At (id : sheet.Id) (id' : sheet'.Id) : Prop := id'.val = id.val

theorem At.eq_iff {id other : sheet.Id} {id' other' : sheet'.Id} (here : At id id') (there : At other other') :
    id' = other' ↔ id = other := by
  rw [Fin.ext_iff, Fin.ext_iff, here, there]

theorem At.rel_eq_iff {id other : Option sheet.Id} {id' other' : Option sheet'.Id}
    (here : Option.Rel At id id') (there : Option.Rel At other other') : id' = other' ↔ id = other := by
  cases here with
  | none => cases there <;> simp
  | some here =>
    cases there with
    | none => simp
    | some there => rw [Option.some_inj, Option.some_inj, here.eq_iff there]

inductive Entry.Respaced : sheet.Entry → sheet'.Entry → Prop where
  | ruleset {id : sheet.Id} {id' : sheet'.Id} (here : At id id') : Respaced (.ruleset id) (.ruleset id')
  | atRule {keyword keyword' : Token} {params params' : Tokens} (twin : keyword.Twin keyword')
      (same : Tokens.Respaced false params params') : Respaced (.atRule keyword params) (.atRule keyword' params')
  | call {tokens others : Tokens} (same : Tokens.Respaced false tokens others) : Respaced (.call tokens) (.call others)

namespace Respaced

theorem ruleset (related : Respaced strict sheet sheet') {id : sheet.Id} {id' : sheet'.Id} (here : At id id') :
    (sheet.ruleset id).Respaced strict (sheet'.ruleset id') := by
  have found := forall₂_getElem? related.rulesets id.val
  have first : sheet.rulesets.toList[id.val]? = some (sheet.ruleset id) := by
    rw [Array.getElem?_toList, Array.getElem?_eq_getElem id.isLt]
    rfl
  have second : sheet'.rulesets.toList[id.val]? = some (sheet'.ruleset id') := by
    rw [← here, Array.getElem?_toList, Array.getElem?_eq_getElem id'.isLt]
    rfl
  rw [first, second] at found
  cases found with
  | some same => exact same

theorem isMixin (related : Respaced strict sheet sheet') {id : sheet.Id} {id' : sheet'.Id} (here : At id id') :
    (sheet'.ruleset id').isMixin = (sheet.ruleset id).isMixin :=
  (related.ruleset here).selector.isMixin

theorem nested (related : Respaced strict sheet sheet') {id : sheet.Id} {id' : sheet'.Id} (here : At id id') :
    List.Forall₂ (fun child child' => At child.val child'.val) (sheet.nested id) (sheet'.nested id') := by
  have same : List.Forall₂ Eq ((sheet.nested id).map fun child => child.val.val)
      ((sheet'.nested id').map fun child => child.val.val) := by
    rw [map_nested_val, map_nested_val, (related.ruleset here).nested]
    exact forall₂_same.mpr fun _ _ => rfl
  rw [forall₂_map_left_iff, forall₂_map_right_iff] at same
  exact same.imp fun _ _ equal => equal.symm

theorem parent (related : Respaced strict sheet sheet') {id : sheet.Id} {id' : sheet'.Id} (here : At id id') :
    Option.Rel (fun parent parent' => At parent.val parent'.val) (sheet.parent? id) (sheet'.parent? id') := by
  have same := (related.ruleset here).parent
  rw [← map_parent?_val, ← map_parent?_val] at same
  generalize sheet.parent? id = parent? at same ⊢
  generalize sheet'.parent? id' = parent?' at same ⊢
  cases parent? with
  | none =>
    cases parent?' with
    | none => exact .none
    | some => cases same
  | some =>
    cases parent?' with
    | none => cases same
    | some => exact .some (Option.some.inj same)

theorem ancestors (related : Respaced strict sheet sheet') {id : sheet.Id} {id' : sheet'.Id} (here : At id id') :
    List.Forall₂ At (sheet.ancestors id) (sheet'.ancestors id') := by
  have same := related.parent here
  rw [Sheet.ancestors, Sheet.ancestors]
  generalize sheet.parent? id = parent? at same ⊢
  generalize sheet'.parent? id' = parent?' at same ⊢
  cases same with
  | none => exact .nil
  | @some parent parent' same => exact .cons same (ancestors related same)
termination_by id.val
decreasing_by exact parent.property

theorem entries (related : Respaced strict sheet sheet') :
    List.Forall₂ Entry.Respaced sheet.entries sheet'.entries := by
  have same : List.Forall₂ (fun item item' => Item.Respaced item.val item'.val) sheet.items.attach sheet'.items.attach := by
    have items := related.items
    rw [← sheet.items.attach_map_subtype_val, ← sheet'.items.attach_map_subtype_val, forall₂_map_left_iff,
      forall₂_map_right_iff] at items
    exact items
  refine rel_map ?_ same
  rintro ⟨item, member⟩ ⟨item', member'⟩ each
  cases each with
  | ruleset id => exact .ruleset rfl
  | atRule twin same => exact .atRule twin same
  | call same => exact .call same

theorem roots (related : Respaced strict sheet sheet') : List.Forall₂ At sheet.roots sheet'.roots := by
  refine rel_filterMap (fun entry entry' same => ?_) related.entries
  cases same with
  | ruleset here => exact .some here
  | atRule => exact .none
  | call => exact .none

end Respaced

end Sheet

/-! ### Frames -/

structure Captured.Respaced (captured : Captured sheet) (captured' : Captured sheet') : Prop where
  ruleset : Sheet.At captured.ruleset captured'.ruleset
  arguments : captured.arguments.Respaced false captured'.arguments

structure Closure.Respaced (closure : Closure sheet) (closure' : Closure sheet') : Prop where
  ruleset : Sheet.At closure.ruleset closure'.ruleset
  captured : List.Forall₂ Captured.Respaced closure.captured closure'.captured

structure Frame.Respaced (frame : Frame sheet) (frame' : Frame sheet') : Prop where
  ruleset : Option.Rel Sheet.At frame.ruleset frame'.ruleset
  arguments : frame.arguments.Respaced false frame'.arguments
  returned : frame.returned.Respaced false frame'.returned
  closures : List.Forall₂ Closure.Respaced frame.closures frame'.closures
  captured : List.Forall₂ Captured.Respaced frame.captured frame'.captured
  purpose : frame'.purpose = frame.purpose

namespace Frame

theorem respaced_root : Respaced (root : Frame sheet) (root : Frame sheet') :=
  ⟨.none, .empty, .empty, .nil, .nil, rfl⟩

theorem respaced_ofRuleset {id : sheet.Id} {id' : sheet'.Id} (here : Sheet.At id id') :
    (ofRuleset id).Respaced (ofRuleset id') :=
  ⟨.some here, .empty, .empty, .nil, .nil, rfl⟩

theorem respaced_ofCall {id : sheet.Id} {id' : sheet'.Id} (here : Sheet.At id id') {arguments arguments' : Variables}
    (given : arguments.Respaced false arguments') {captured : List (Captured sheet)}
    {captured' : List (Captured sheet')} (taken : List.Forall₂ Captured.Respaced captured captured') :
    (ofCall id arguments captured).Respaced (ofCall id' arguments' captured') :=
  ⟨.some here, given, .empty, .nil, taken, rfl⟩

namespace Respaced

variable {frame : Frame sheet} {frame' : Frame sheet'}

theorem callee (related : frame.Respaced frame') : Option.Rel Sheet.At frame.callee? frame'.callee? := by
  rw [callee?, callee?, isCall, isCall, related.purpose]
  split
  · exact related.ruleset
  · exact .none

theorem addClosures (related : frame.Respaced frame') {closures : List (Closure sheet)}
    {closures' : List (Closure sheet')} (left : List.Forall₂ Closure.Respaced closures closures') :
    (frame.addClosures closures).Respaced (frame'.addClosures closures') :=
  { related with closures := rel_append related.closures left }

theorem addReturned (related : frame.Respaced frame') {vars vars' : Variables} (left : vars.Respaced false vars') :
    (frame.addReturned vars).Respaced (frame'.addReturned vars') :=
  { related with returned := related.returned.merge left }

end Respaced

end Frame

/-- The first of the elements that are chosen on both sides. -/
theorem rel_find? {α β : Type} {R : α → β → Prop} {p : α → Bool} {q : β → Bool} {list : List α} {list' : List β}
    (same : List.Forall₂ R list list') (chosen : ∀ a b, R a b → q b = p a) :
    Option.Rel R (list.find? p) (list'.find? q) := by
  induction same with
  | nil => exact .none
  | @cons a b _ _ first _ ih =>
    rw [List.find?_cons, List.find?_cons, chosen a b first]
    cases p a with
    | true => exact .some first
    | false => exact ih

theorem rel_zipWith {α β γ α' β' γ' : Type} {R : α → α' → Prop} {S : β → β' → Prop} {T : γ → γ' → Prop}
    {f : α → β → γ} {g : α' → β' → γ'} (step : ∀ a a' b b', R a a' → S b b' → T (f a b) (g a' b'))
    {list : List α} {list' : List α'} (same : List.Forall₂ R list list') {more : List β} {more' : List β'}
    (others : List.Forall₂ S more more') : List.Forall₂ T (List.zipWith f list more) (List.zipWith g list' more') := by
  induction same generalizing more more' with
  | nil => exact .nil
  | cons first _ ih =>
    cases others with
    | nil => exact .nil
    | cons other others => exact .cons (step _ _ _ _ first other) (ih others)

/-! ### Stacks -/

theorem Scope.Respaced.ofVariables {scope scope' : Scope} (same : List.Forall₂ (Variables.Respaced strict) scope scope') :
    Scope.Respaced strict scope scope' := by
  intro name
  unfold Scope.find?
  induction same with
  | nil => exact .none
  | @cons vars vars' _ _ first _ ih =>
    have found := first.get? name
    rw [List.findSome?_cons, List.findSome?_cons]
    generalize vars.get? name = value at found ⊢
    generalize vars'.get? name = value' at found ⊢
    cases found with
    | none => exact ih
    | some same => exact .some same

namespace Stack

def Respaced (stack : Stack sheet) (stack' : Stack sheet') : Prop :=
  List.Forall₂ Frame.Respaced stack stack'

namespace Respaced

variable {stack : Stack sheet} {stack' : Stack sheet'} {frame : Frame sheet} {frame' : Frame sheet'}
  {id : sheet.Id} {id' : sheet'.Id}

theorem calls (stacked : stack.Respaced stack') : List.Forall₂ Sheet.At stack.calls stack'.calls :=
  rel_filterMap (fun _ _ frame => frame.callee) stacked

theorem mem_calls (stacked : stack.Respaced stack') (here : Sheet.At id id') : id' ∈ stack'.calls ↔ id ∈ stack.calls := by
  have same := stacked.calls
  generalize stack.calls = list at same ⊢
  generalize stack'.calls = list' at same ⊢
  induction same with
  | nil => simp
  | cons first _ ih =>
    rw [mem_cons, mem_cons, here.eq_iff first]
    exact or_congr Iff.rfl ih

theorem callOf (stacked : stack.Respaced stack') (here : Sheet.At id id') :
    Option.Rel Frame.Respaced (stack.callOf? id) (stack'.callOf? id') := by
  refine rel_find? stacked fun frame frame' related => ?_
  rw [Bool.eq_iff_iff, beq_iff_eq, beq_iff_eq]
  exact Sheet.At.rel_eq_iff related.callee (.some here)

theorem outerArguments (related : frame.Respaced frame') (stacked : stack.Respaced stack') (here : Sheet.At id id') :
    List.Forall₂ (Variables.Respaced false) (Stack.outerArguments frame stack id)
      (Stack.outerArguments frame' stack' id') := by
  have taken : Option.Rel Captured.Respaced (frame.captured.find? fun captured => captured.ruleset = id)
      (frame'.captured.find? fun captured => captured.ruleset = id') := by
    refine rel_find? related.captured fun captured captured' same => ?_
    rw [Bool.eq_iff_iff, decide_eq_true_iff, decide_eq_true_iff]
    exact same.ruleset.eq_iff here
  have called := stacked.callOf here
  unfold Stack.outerArguments
  generalize (frame.captured.find? fun captured => captured.ruleset = id) = first at taken ⊢
  generalize (frame'.captured.find? fun captured => captured.ruleset = id') = second at taken ⊢
  generalize stack.callOf? id = call at called ⊢
  generalize stack'.callOf? id' = call' at called ⊢
  cases taken with
  | some same => exact .cons same.arguments .nil
  | none =>
    cases called with
    | none => exact .nil
    | some same => exact .cons same.arguments (rel_map (fun _ _ each => each.arguments) same.captured)

section

variable (sheets : Sheet.Respaced strict sheet sheet')

include sheets

theorem ancestorScope (related : frame.Respaced frame')
    (stacked : stack.Respaced stack') (here : Sheet.At id id') :
    List.Forall₂ (Variables.Respaced false) (Stack.ancestorScope frame stack id)
      (Stack.ancestorScope frame' stack' id') := by
  rw [Stack.ancestorScope, Stack.ancestorScope, sheets.isMixin here]
  refine .cons (sheets.ruleset here).vars ?_
  split
  · exact outerArguments related stacked here
  · exact .nil

theorem frameScope (related : frame.Respaced frame') (stacked : stack.Respaced stack') :
    List.Forall₂ (Variables.Respaced false) (Stack.frameScope frame stack) (Stack.frameScope frame' stack') := by
  have place := related.ruleset
  unfold Stack.frameScope
  generalize frame.ruleset = id? at place ⊢
  generalize frame'.ruleset = id?' at place ⊢
  cases place with
  | none => exact .cons related.returned .nil
  | some here =>
    refine .cons (sheets.ruleset here).vars (.cons related.arguments (.cons related.returned ?_))
    exact rel_flatMap (sheets.ancestors here) fun _ _ there => ancestorScope sheets related stacked there

theorem scopes (stacked : stack.Respaced stack') :
    List.Forall₂ (Variables.Respaced false) stack.scope stack'.scope := by
  induction stacked with
  | nil => exact .cons sheets.vars .nil
  | cons related outer ih => exact rel_append (frameScope sheets related outer) ih

theorem scope (stacked : stack.Respaced stack') : Scope.Respaced false stack.scope stack'.scope :=
  .ofVariables (stacked.scopes sheets)

end

theorem closuresOf (stacked : stack.Respaced stack') {place : Option sheet.Id} {place' : Option sheet'.Id}
    (here : Option.Rel Sheet.At place place') :
    List.Forall₂ Closure.Respaced (stack.closuresOf place) (stack'.closuresOf place') := by
  have found : Option.Rel Frame.Respaced (stack.find? fun frame => frame.ruleset = place)
      (stack'.find? fun frame => frame.ruleset = place') := by
    refine rel_find? stacked fun frame frame' related => ?_
    rw [Bool.eq_iff_iff, decide_eq_true_iff, decide_eq_true_iff]
    exact Sheet.At.rel_eq_iff related.ruleset here
  unfold Stack.closuresOf
  generalize (stack.find? fun frame => frame.ruleset = place) = first at found ⊢
  generalize (stack'.find? fun frame => frame.ruleset = place') = second at found ⊢
  cases found with
  | none => exact .nil
  | some related => exact related.closures

theorem capture (sheets : Sheet.Respaced strict sheet sheet') (stacked : stack.Respaced stack') (here : Sheet.At id id') :
    List.Forall₂ Captured.Respaced (stack.capture id) (stack'.capture id') := by
  refine rel_flatMap (sheets.ancestors here) fun ancestor ancestor' there => ?_
  have called := stacked.callOf there
  rw [sheets.isMixin there]
  generalize stack.callOf? ancestor = call at called ⊢
  generalize stack'.callOf? ancestor' = call' at called ⊢
  split
  · cases called with
    | none => exact .nil
    | some related => exact .cons ⟨there, related.arguments⟩ related.captured
  · exact .nil

end Respaced

end Stack

/-! ### Definitions that a call means -/

def Sheet.FoundAt (found : sheet.Id × List (Captured sheet)) (found' : sheet'.Id × List (Captured sheet')) : Prop :=
  Sheet.At found.1 found'.1 ∧ List.Forall₂ Captured.Respaced found.2 found'.2

structure Sheet.Level.Respaced (level : sheet.Level) (level' : sheet'.Level) : Prop where
  scope : Option.Rel Sheet.At level.scope level'.scope
  searched : Option.Rel Sheet.At level.searched level'.searched

structure Candidate.Respaced (candidate : Candidate sheet) (candidate' : Candidate sheet') : Prop where
  ruleset : Sheet.At candidate.ruleset candidate'.ruleset
  arguments : candidate.arguments.Respaced false candidate'.arguments
  captured : List.Forall₂ Captured.Respaced candidate.captured candidate'.captured
  guarded : candidate'.guarded = candidate.guarded

namespace Sheet.Respaced

variable {call call' : MixinCall}

theorem definitions (related : Respaced strict sheet sheet') (path : call'.path = call.path) (offset : Nat)
    {id : sheet.Id} {id' : sheet'.Id} (here : At id id') :
    List.Forall₂ At (sheet.definitions call offset id) (sheet'.definitions call' offset id') := by
  rw [Sheet.definitions, Sheet.definitions,
    MixinCall.respaced_walk path (related.ruleset here).selector.tokens offset]
  cases call.walk (sheet.ruleset id).selector.tokens offset with
  | none => exact .nil
  | some reached =>
    dsimp only
    rw [path]
    split
    · exact .cons here .nil
    · exact rel_flatMap (related.nested here) fun child child' there =>
        definitions related path reached there
termination_by sheet.rulesets.size - id.val
decreasing_by
  have after : id.val < child.val.val := child.property
  have := child.val.isLt
  omega

theorem levels (related : Respaced strict sheet sheet') {caller : Option sheet.Id} {caller' : Option sheet'.Id}
    (here : Option.Rel At caller caller') :
    List.Forall₂ Level.Respaced (sheet.levels caller) (sheet'.levels caller') := by
  cases here with
  | none => exact .cons ⟨.none, .none⟩ .nil
  | @some id id' here =>
    have chain : List.Forall₂ At (id :: sheet.ancestors id) (id' :: sheet'.ancestors id') :=
      .cons here (related.ancestors here)
    refine rel_zipWith (fun _ _ _ _ scope searched => ⟨scope, searched⟩) ?_ (.cons .none ?_)
    · exact rel_append (rel_map (fun _ _ there => .some there) chain) (.cons .none .nil)
    · refine rel_map (fun inner inner' there => ?_) chain
      rw [related.isMixin there]
      split
      · exact .none
      · exact .some there

end Sheet.Respaced

namespace Stack.Respaced

variable {call call' : MixinCall} {stack : Stack sheet} {stack' : Stack sheet'}

theorem definitionsAt (sheets : Sheet.Respaced strict sheet sheet') (stacked : stack.Respaced stack')
    (path : call'.path = call.path) {level : sheet.Level} {level' : sheet'.Level} (here : level.Respaced level') :
    List.Forall₂ Sheet.FoundAt (stack.definitionsAt call level) (stack'.definitionsAt call' level') := by
  obtain ⟨place, searched⟩ := level
  obtain ⟨place', searched'⟩ := level'
  obtain ⟨scope, before⟩ := here
  dsimp only at scope before
  have completed {id : sheet.Id} {id' : sheet'.Id} (there : Sheet.At id id') {captured : List (Captured sheet)}
      {captured' : List (Captured sheet')} (taken : List.Forall₂ Captured.Respaced captured captured') :
      List.Forall₂ Sheet.FoundAt ((sheet.definitions call 0 id).map fun found => (found, captured))
        ((sheet'.definitions call' 0 id').map fun found => (found, captured')) :=
    rel_map (fun _ _ found => ⟨found, taken⟩) (sheets.definitions path 0 there)
  -- The one that was searched before is left out on both sides, as the places agree.
  have own {inside : List sheet.Id} {inside' : List sheet'.Id} (same : List.Forall₂ Sheet.At inside inside') :
      List.Forall₂ Sheet.FoundAt
        ((inside.filter fun id => some id != searched).flatMap fun id =>
          (sheet.definitions call 0 id).map fun found => (found, []))
        ((inside'.filter fun id => some id != searched').flatMap fun id =>
          (sheet'.definitions call' 0 id).map fun found => (found, [])) := by
    refine rel_flatMap (rel_filter (fun id id' there => ?_) same) fun _ _ there => completed there .nil
    change (some id != searched) = true ↔ (some id' != searched') = true
    rw [bne_iff_ne, bne_iff_ne]
    exact not_congr (Sheet.At.rel_eq_iff (.some there) before).symm
  have left := rel_flatMap (stacked.closuresOf scope) fun _ _ closure => completed closure.ruleset closure.captured
  unfold Stack.definitionsAt
  cases scope with
  | none => exact rel_append (own sheets.roots) left
  | some there =>
    have inside := sheets.nested there
    rw [← forall₂_map_right_iff, ← forall₂_map_left_iff] at inside
    exact rel_append (own inside) left

theorem definitions (sheets : Sheet.Respaced strict sheet sheet') (stacked : stack.Respaced stack')
    (path : call'.path = call.path) {caller : Option sheet.Id} {caller' : Option sheet'.Id}
    (here : Option.Rel Sheet.At caller caller') :
    List.Forall₂ Sheet.FoundAt (stack.definitions caller call) (stack'.definitions caller' call') := by
  have found := rel_find? (p := fun found => !found.isEmpty) (q := fun found => !found.isEmpty)
    (rel_map (fun _ _ level => definitionsAt sheets stacked path level) (sheets.levels here))
    fun _ _ same => by rw [isEmpty_of_forall₂ same]
  unfold Stack.definitions
  revert found
  generalize List.find? _ ((sheet.levels caller).map (stack.definitionsAt call)) = first
  generalize List.find? _ ((sheet'.levels caller').map (stack'.definitionsAt call')) = second
  intro found
  cases found with
  | none => exact .nil
  | some same => exact same

theorem holdsAny (library : Library) {scope scope' : Scope} (names : Scope.Respaced false scope scope')
    {conditions conditions' : List Tokens} (parts : Tokens.RespacedParts strict conditions conditions') :
    Agree Eq (scope.holdsAny library conditions) (scope'.holdsAny library conditions') := by
  unfold Scope.holdsAny
  rw [isEmpty_of_forall₂ parts]
  refine Agree.ite (fun _ => .ok rfl) fun some_ => ?_
  clear some_
  induction parts with
  | nil => exact .ok rfl
  | cons first _ ih =>
    rw [anyM_cons, anyM_cons]
    refine (names.holds library first.loosen).bind ?_
    rintro held _ rfl
    exact Agree.ite (fun _ => .ok rfl) fun _ => ih

theorem candidate (sheets : Sheet.Respaced strict sheet sheet') (library : Library) (stacked : stack.Respaced stack')
    (called : call.Respaced false call') {id : sheet.Id} {id' : sheet'.Id} (here : Sheet.At id id')
    {captured : List (Captured sheet)} {captured' : List (Captured sheet')}
    (taken : List.Forall₂ Captured.Respaced captured captured') :
    Logged.Agree (Option.Rel Candidate.Respaced) (stack.candidate? library call id captured)
      (stack'.candidate? library call' id' captured') := by
  have head := (sheets.ruleset here).selector
  have bound := MixinCall.respaced_bind called head
  unfold Stack.candidate?
  dsimp only
  generalize call.bind? (sheet.ruleset id).selector = vars? at bound ⊢
  generalize call'.bind? (sheet'.ruleset id').selector = vars?' at bound ⊢
  cases bound with
  | none => exact agree_report_bind _ _ _ _ (agree_pure .none)
  | @some arguments arguments' given =>
    have frame : (Frame.ofGuard id arguments captured).Respaced (Frame.ofGuard id' arguments' captured') :=
      { Frame.respaced_ofCall here given taken with purpose := rfl }
    have names := Respaced.scope sheets (.cons frame stacked)
    refine (agree_ofExcept (holdsAny library names head.conditions)).bind ?_
    rintro held _ rfl
    refine agree_ite (fun _ => agree_pure (.some ⟨here, given, taken, head.isGuarded⟩)) fun _ => ?_
    exact agree_report_bind _ _ _ _ (agree_pure .none)

theorem candidatesOf (sheets : Sheet.Respaced strict sheet sheet') (library : Library) (stacked : stack.Respaced stack')
    (called : call.Respaced false call') {list : List (sheet.Id × List (Captured sheet))}
    {list' : List (sheet'.Id × List (Captured sheet'))} (found : List.Forall₂ Sheet.FoundAt list list') :
    Logged.Agree (List.Forall₂ Candidate.Respaced) (stack.candidatesOf library call list)
      (stack'.candidatesOf library call' list') := by
  induction found with
  | nil => exact agree_pure .nil
  | cons first _ ih =>
    refine (candidate sheets library stacked called first.1 first.2).bind fun one one' same => ?_
    refine ih.bind fun rest rest' others => agree_pure (rel_append ?_ others)
    cases same with
    | none => exact .nil
    | some same => exact .cons same .nil

/-- A call means the same definitions. -/
theorem candidates (sheets : Sheet.Respaced strict sheet sheet') (library : Library) (stacked : stack.Respaced stack')
    (called : call.Respaced false call') {caller : Option sheet.Id} {caller' : Option sheet'.Id}
    (here : Option.Rel Sheet.At caller caller') :
    Logged.Agree (List.Forall₂ Candidate.Respaced) (stack.candidates library caller call)
      (stack'.candidates library caller' call') := by
  refine (candidatesOf sheets library stacked called (definitions sheets stacked called.path here)).bind ?_
  intro found found' same
  refine agree_report_bind _ _ _ _ (agree_pure ?_)
  have any : found'.any Candidate.guarded = found.any Candidate.guarded := by
    clear * - same
    induction same with
    | nil => rfl
    | cons first _ ih => rw [any_cons, any_cons, first.guarded, ih]
  rw [any]
  split
  · refine rel_filter (fun candidate candidate' each => ?_) same
    change candidate.guarded = true ↔ candidate'.guarded = true
    rw [each.guarded]
  · exact same

end Stack.Respaced

end LessCss
