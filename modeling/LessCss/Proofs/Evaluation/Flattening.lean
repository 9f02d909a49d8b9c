import LessCss.Proofs.Evaluation.LexicalScope
import LessCss.Proofs.Evaluator.Sheet
import LessCss.Compile

/-! Sheets without mixins. Main statement: the evaluation of such a sheet is a walk
over the tree of its rulesets, where each ruleset puts out one rule before the
rulesets inside it, and each name means what it means in the lexical scope. -/

set_option autoImplicit false

namespace LessCss

open List Logged Sheet

def Item.isRuleset : Item → Bool
  | .ruleset _ => true
  | _ => false

def Statement.Declares (tokens : Tokens) : Prop :=
  tokens.headIs .atKeyword = false ∧ tokens.headText? ≠ some "&" ∧ MixinCall.read? tokens = none

instance (tokens : Tokens) : Decidable (Statement.Declares tokens) :=
  inferInstanceAs (Decidable (_ ∧ _))

def Ruleset.Plain (ruleset : Ruleset) : Prop :=
  ruleset.selector.parameters = none ∧ ruleset.selector.conditions = [] ∧
    ruleset.selector.extensions = [] ∧ ∀ tokens ∈ ruleset.statements, Statement.Declares tokens

instance (ruleset : Ruleset) : Decidable ruleset.Plain :=
  inferInstanceAs (Decidable (_ ∧ _))

namespace Sheet

/-- Nothing but plain rulesets and at-blocks, and variables. -/
def MixinFree (sheet : Sheet) : Prop :=
  (∀ item ∈ sheet.items, item.isRuleset = true) ∧ ∀ id : sheet.Id, (sheet.ruleset id).Plain

instance (sheet : Sheet) : Decidable sheet.MixinFree :=
  inferInstanceAs (Decidable (_ ∧ _))

def declare (library : Library) (scope : Scope) (tokens : Tokens) : Except Error Css.Declaration :=
  match Statement.declaration? tokens with
  | none => .error (.parse tokens.position tokens.normalized .statement)
  | some (property, value) => do
    let property ← scope.interpolateTokens library property
    let (value, important) := Statement.stripImportant value
    return ⟨property.text, ← scope.evaluate library value, important⟩

/-- The nodes of a ruleset under the selector around it, those of the rulesets
inside it last. The declarations of a block need a rule if there is a selector. -/
def flattenAt (sheet : Sheet) (library : Library) (around : Tokens) (id : sheet.Id) :
    Except Error Css.Stylesheet := do
  let ruleset := sheet.ruleset id
  let scope := sheet.lexicalScope id
  match ruleset.kind with
  | .plain =>
    let own ← scope.interpolateTokens library ruleset.selector.tokens
    let selector := Selector.nest around own
    let declarations ← ruleset.statements.mapM (declare library scope)
    let inner ← (sheet.nested id).mapM fun child => sheet.flattenAt library selector child.val
    return .rule selector declarations :: inner.flatten
  | .atBlock keyword params bubbles =>
    let params ← scope.evaluate library params
    let selector := if bubbles then around else []
    let declarations ← ruleset.statements.mapM (declare library scope)
    let inner ← (sheet.nested id).mapM fun child => sheet.flattenAt library selector child.val
    if selector.isEmpty then return [.block keyword.text params declarations inner.flatten]
    else
      let own := if declarations.isEmpty then [] else [Css.Node.rule selector declarations]
      return [.block keyword.text params [] (own ++ inner.flatten)]
termination_by sheet.rulesets.size - id.val
decreasing_by
  all_goals
    have after : id.val < child.val.val := child.property
    have := child.val.isLt
    omega

def flatten (sheet : Sheet) (library : Library) : Except Error Css.Stylesheet := do
  let nodes ← sheet.roots.mapM (sheet.flattenAt library [])
  return nodes.flatten

end Sheet

namespace Evaluation

variable {sheet : Sheet} {calls : List sheet.Id} (library : Library) (expand : Expand sheet calls)
  {frame : Frame sheet} {outer : Stack sheet}

def declared (frame : Frame sheet) (declarations : List Css.Declaration) : Progress frame :=
  .still frame ⟨⟨declarations, []⟩, []⟩

theorem evaluateStatement_declares (selector : Tokens) (same : Stack.calls (frame :: outer) = calls)
    {tokens : Tokens} (declares : Statement.Declares tokens) :
    evaluateStatement library expand outer selector frame same tokens =
      ofExcept (declare library (Stack.scope (frame :: outer)) tokens) >>=
        fun declaration => pure (declared frame [declaration]) := by
  obtain ⟨noKeyword, noMark, noCall⟩ := declares
  have noExtends : Statement.extends? tokens = none := if_neg noMark
  rw [evaluateStatement, if_neg (by simp [noKeyword]), noExtends, noCall]
  rfl

theorem evaluateStatements_declares (selector : Tokens) (same : Stack.calls (frame :: outer) = calls)
    (list : List Tokens) (declares : ∀ tokens ∈ list, Statement.Declares tokens) :
    evaluateStatements library expand outer selector frame same list =
      ofExcept (list.mapM (declare library (Stack.scope (frame :: outer)))) >>=
        fun declarations => pure (declared frame declarations) := by
  induction list with
  | nil => rfl
  | cons tokens rest ih =>
    have first := evaluateStatement_declares library expand selector same
      (declares tokens mem_cons_self)
    have others := ih fun tokens member => declares tokens (mem_cons_of_mem _ member)
    rw [evaluateStatements, first, mapM_cons]
    simp only [ofExcept_bind, bind_assoc, pure_bind]
    refine congrArg _ (funext fun declaration => ?_)
    change (evaluateStatements library expand outer selector frame same rest >>= _) = _
    rw [others]
    cases rest.mapM (declare library (Stack.scope (frame :: outer))) <;> rfl

def ofNodes (nodes : Css.Stylesheet) : Yield := ⟨⟨[], nodes⟩, []⟩

theorem concat_ofNodes (parts : List Css.Stylesheet) :
    Yield.concat (parts.map ofNodes) = ofNodes parts.flatten := by
  induction parts with
  | nil => rfl
  | cons first rest ih =>
    rw [map_cons, Yield.concat, ih, flatten_cons]
    rfl

/-- Parts that put out nodes, one after the other. -/
theorem mapM_ofNodes {ι : Type} (list : List ι) {evaluate : ι → Logged Yield}
    {flatten : ι → Except Error Css.Stylesheet}
    (each : ∀ part ∈ list, evaluate part =
      ofExcept (flatten part) >>= fun nodes => pure (ofNodes nodes)) :
    list.mapM evaluate =
      ofExcept (list.mapM flatten) >>= fun parts => pure (parts.map ofNodes) := by
  induction list with
  | nil => rfl
  | cons first rest ih =>
    have others := ih fun part member => each part (mem_cons_of_mem _ member)
    rw [mapM_cons, mapM_cons, each first mem_cons_self, others]
    cases flatten first with
    | error error => rfl
    | ok nodes => cases rest.mapM flatten <;> rfl

theorem declare_congr {scope scope' : Scope} (same : ∀ name, scope.find? name = scope'.find? name) :
    declare library scope = declare library scope' := by
  funext tokens
  rw [declare, declare]
  cases Statement.declaration? tokens with
  | none => rfl
  | some parts =>
    dsimp only
    rw [Scope.interpolateTokens_congr same]
    simp only [Scope.evaluate_congr same]

theorem find?_root {id : sheet.Id} (root : Sheet.Entry.ruleset id ∈ sheet.entries) (name : String) :
    (Stack.scope [(.root : Frame sheet)]).find? name = (sheet.outerScope id).find? name := by
  rw [outerScope_root root]
  rfl

variable (free : ∀ id : sheet.Id, (sheet.ruleset id).Plain)

include free

theorem isMixin_eq_false (id : sheet.Id) : (sheet.ruleset id).isMixin = false := by
  rw [Ruleset.isMixin, Selector.isMixin, (free id).1]
  rfl

/-- A ruleset without mixins puts out what the walk over the tree puts out. -/
theorem evaluateRuleset_eq_flattenAt {outer : Stack sheet} (same : outer.calls = calls)
    (around : Tokens) (id : sheet.Id)
    (lexical : ∀ name, outer.scope.find? name = (sheet.outerScope id).find? name) :
    evaluateRuleset library expand outer same around id =
      ofExcept (sheet.flattenAt library around id) >>= fun nodes => pure (ofNodes nodes) := by
  -- The invariant is on names only: in the stack each of them means what it means in
  -- the tree. It passes from a ruleset to the rulesets inside it.
  have inside := Stack.find?_ofRuleset (isMixin_eq_false free) lexical
  have same' : Stack.calls (.ofRuleset id :: outer) = calls := same
  obtain ⟨_, unguarded, noExtends, declares⟩ := free id
  have statements (selector : Tokens) :
      evaluateStatements library expand outer selector (.ofRuleset id) same'
          (sheet.ruleset id).statements =
        ofExcept ((sheet.ruleset id).statements.mapM
          (declare library (sheet.lexicalScope id))) >>=
            fun declarations => pure (declared (.ofRuleset id) declarations) := by
    rw [evaluateStatements_declares library expand selector same' _ declares,
      declare_congr library inside]
  have nested (selector : Tokens) :
      ((sheet.nested id).mapM fun child =>
          evaluateRuleset library expand (.ofRuleset id :: outer) same' selector child.val) =
        ofExcept ((sheet.nested id).mapM fun child =>
          sheet.flattenAt library selector child.val) >>= fun parts => pure (parts.map ofNodes) := by
    refine mapM_ofNodes (sheet.nested id) fun child member => ?_
    refine evaluateRuleset_eq_flattenAt same' selector child.val fun name => ?_
    rw [inside name, outerScope_nested member]
  rw [evaluateRuleset, flattenAt, if_neg (by simp [isMixin_eq_false free id])]
  cases (sheet.ruleset id).kind with
  | plain =>
    simp only [unguarded, noExtends, Scope.interpolateTokens_congr inside, ofExcept_bind,
      bind_assoc]
    change (ofExcept ((sheet.lexicalScope id).interpolateTokens library
      (sheet.ruleset id).selector.tokens) >>= _) = _
    refine bind_congr fun own => ?_
    change (evaluateStatements library expand outer (Selector.nest around own) (.ofRuleset id) same'
      (sheet.ruleset id).statements >>= _) = _
    rw [statements, bind_assoc]
    refine bind_congr fun declarations => ?_
    change ((sheet.nested id).mapM (fun child => evaluateRuleset library expand
      (.ofRuleset id :: outer) same' (Selector.nest around own) child.val) >>= _) = _
    rw [nested, bind_assoc]
    refine bind_congr fun parts => ?_
    rw [pure_bind, concat_ofNodes]
    rfl
  | atBlock keyword params bubbles =>
    simp only [Scope.evaluate_congr inside, ofExcept_bind, bind_assoc]
    refine bind_congr fun params => ?_
    change (evaluateStatements library expand outer (if bubbles then around else []) (.ofRuleset id)
      same' (sheet.ruleset id).statements >>= _) = _
    rw [statements, bind_assoc]
    refine bind_congr fun declarations => ?_
    change ((sheet.nested id).mapM (fun child => evaluateRuleset library expand
      (.ofRuleset id :: outer) same' (if bubbles then around else []) child.val) >>= _) = _
    rw [nested, bind_assoc]
    refine bind_congr fun parts => ?_
    rw [pure_bind, concat_ofNodes]
    by_cases bare : List.isEmpty (if bubbles then around else [])
    · rw [if_pos bare, if_pos bare]
      rfl
    · rw [if_neg bare, if_neg bare]
      cases declarations <;> rfl
termination_by sheet.rulesets.size - id.val
decreasing_by
  have after : id.val < child.val.val := child.property
  have := child.val.isLt
  omega

/-- The same for what stands outside all rulesets. No entry changes the outermost frame. -/
theorem evaluateEntries_eq_flatten (list : List sheet.Entry)
    (rulesets : ∀ entry ∈ list, entry ∈ sheet.entries ∧ ∃ id, entry = .ruleset id) :
    evaluateEntries library .root list =
      ofExcept ((list.filterMap Sheet.Entry.ruleset?).mapM (sheet.flattenAt library [])) >>=
        fun parts => pure (ofNodes parts.flatten) := by
  induction list with
  | nil => rfl
  | cons entry rest ih =>
    obtain ⟨member, id, rfl⟩ := rulesets entry mem_cons_self
    have first := evaluateRuleset_eq_flattenAt library (fun stack _ => Evaluation.expand library stack)
      free rfl [] id (find?_root member)
    have others := ih fun entry member => rulesets entry (mem_cons_of_mem _ member)
    have listed : (Sheet.Entry.ruleset id).ruleset? = some id := rfl
    rw [evaluateEntries, evaluateEntry, first, filterMap_cons_some listed, mapM_cons]
    simp only [ofExcept_bind, bind_assoc, pure_bind, others]
    refine bind_congr fun nodes => bind_congr fun parts => ?_
    rfl

end Evaluation

namespace Sheet

theorem entry_of_mixinFree {sheet : Sheet} (free : sheet.MixinFree) {entry : sheet.Entry}
    (member : entry ∈ sheet.entries) : ∃ id, entry = .ruleset id := by
  obtain ⟨⟨item, inside⟩, _, rfl⟩ := mem_map.mp member
  have isRuleset := free.1 item inside
  cases item with
  | ruleset id => exact ⟨_, rfl⟩
  | atRule keyword params => cases isRuleset
  | call tokens => cases isRuleset

theorem evaluate_eq_flatten {sheet : Sheet} (library : Library) (free : sheet.MixinFree) :
    sheet.evaluate library = ofExcept (sheet.flatten library) := by
  have entries := Evaluation.evaluateEntries_eq_flatten library free.2 sheet.entries
    fun entry member => ⟨member, entry_of_mixinFree free member⟩
  rw [evaluate, flatten, roots, entries, ofExcept_bind, bind_assoc]
  rfl

end Sheet

namespace Evaluator

/-- Without mixins the evaluation is the walk over the tree of rulesets, with the
same style sheet or the same error. -/
theorem mixinFree_flattened (library : Library) (sheet : Sheet) (free : sheet.MixinFree) :
    ((new library).evaluate sheet).map Prod.fst = some (sheet.flatten library) := by
  have ready : (new library).processor = .fresh := rfl
  obtain ⟨last, ends, _⟩ := evaluate_of_fresh ready sheet
  have result : (sheet.evaluate library).outcome.1 = sheet.flatten library := by
    rw [evaluate_eq_flatten library free]
    cases sheet.flatten library <;> rfl
  rw [ends]
  exact congrArg some result

def hidingBlock : String :=
  "@c: red; .a \x7b color: @c; @media print \x7b @c: blue; .b \x7b top: @c \x7d \x7d \x7d"

theorem hidingBlock_flattened : ∃ sheet,
    (read "in" hidingBlock).outcome.1.toOption = some sheet ∧ sheet.MixinFree ∧
      ((new .empty).evaluate sheet).map Prod.fst = some (sheet.flatten .empty) ∧
      (sheet.flatten .empty).toOption.map (Css.print true) =
        some ".a\x7bcolor:red\x7d@media print\x7b.a .b\x7btop:blue\x7d\x7d" := by
  have checked : ((read "in" hidingBlock).outcome.1.toOption.any fun sheet =>
      decide (sheet.MixinFree ∧ (sheet.flatten .empty).toOption.map (Css.print true) =
        some ".a\x7bcolor:red\x7d@media print\x7b.a .b\x7btop:blue\x7d\x7d")) = true := by
    decide +kernel
  obtain ⟨sheet, read, facts⟩ := (Option.any_eq_true _ _).mp checked
  obtain ⟨free, printed⟩ := of_decide_eq_true facts
  exact ⟨sheet, read, free, mixinFree_flattened .empty sheet free, printed⟩

end Evaluator

end LessCss
