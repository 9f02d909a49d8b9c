import LessCss.Proofs.Spacing.Logs
import LessCss.Proofs.Spacing.Statements
import LessCss.Sheet.Read

/-! Sheets read from tokens that differ in their places and in how blanks are cut. Main
statement: if each statement that becomes a selector or a directive is the same in the
strict reading, then the sheets have the same rulesets in the same places. -/

set_option autoImplicit false

namespace LessCss

open List Logged Tokens

variable {strict : Bool} {tokens others : Tokens}

/-! ### Sheets -/

/-- The same statement, which holds the same directives if it is one. -/
structure Statement.Respaced (strict : Bool) (first second : Tokens) : Prop where
  tokens : Tokens.Respaced false first second
  directives : Option.Rel (List.Forall₂ (Extend.Respaced strict)) (extends? first) (extends? second)

inductive RulesetKind.Respaced : RulesetKind → RulesetKind → Prop where
  | plain : Respaced .plain .plain
  | atBlock {keyword keyword' : Token} {params params' : Tokens} (bubbles : Bool) (twin : keyword.Twin keyword')
      (same : Tokens.Respaced false params params') : Respaced (.atBlock keyword params bubbles) (.atBlock keyword' params' bubbles)

structure Ruleset.Respaced (strict : Bool) (first second : Ruleset) : Prop where
  selector : first.selector.Respaced strict second.selector
  kind : first.kind.Respaced second.kind
  parent : second.parent = first.parent
  nested : second.nested = first.nested
  statements : List.Forall₂ (Statement.Respaced strict) first.statements second.statements
  vars : first.vars.Respaced false second.vars

inductive Item.Respaced : Item → Item → Prop where
  | ruleset (id : Nat) : Respaced (.ruleset id) (.ruleset id)
  | atRule {keyword keyword' : Token} {params params' : Tokens} (twin : keyword.Twin keyword')
      (same : Tokens.Respaced false params params') : Respaced (.atRule keyword params) (.atRule keyword' params')
  | call {tokens others : Tokens} (same : Tokens.Respaced false tokens others) : Respaced (.call tokens) (.call others)

structure Sheet.Respaced (strict : Bool) (sheet sheet' : Sheet) : Prop where
  rulesets : List.Forall₂ (Ruleset.Respaced strict) sheet.rulesets.toList sheet'.rulesets.toList
  items : List.Forall₂ Item.Respaced sheet.items sheet'.items
  vars : sheet.vars.Respaced false sheet'.vars

theorem forall₂_modify {α β : Type} {R : α → β → Prop} {f : α → α} {g : β → β} {list : List α} {list' : List β}
    (all : List.Forall₂ R list list') (step : ∀ a b, R a b → R (f a) (g b)) (i : Nat) :
    List.Forall₂ R (list.modify i f) (list'.modify i g) := by
  induction all generalizing i with
  | nil =>
    rw [modify_nil, modify_nil]
    exact .nil
  | cons first rest ih =>
    cases i with
    | zero => exact .cons (step _ _ first) rest
    | succ i => exact .cons first (ih i)

theorem forall₂_getElem? {α β : Type} {R : α → β → Prop} {list : List α} {list' : List β}
    (all : List.Forall₂ R list list') (i : Nat) : Option.Rel R list[i]? list'[i]? := by
  induction all generalizing i with
  | nil => exact .none
  | cons first _ ih =>
    cases i with
    | zero => exact .some first
    | succ i => exact ih i

namespace Sheet.Respaced

variable {sheet sheet' : Sheet}

section

variable (related : Respaced strict sheet sheet')

include related

theorem size : sheet'.rulesets.size = sheet.rulesets.size :=
  related.rulesets.length_eq.symm

theorem modify (id : Nat) {change change' : Ruleset → Ruleset}
    (keeps : ∀ r, (change r).nested = r.nested ∧ (change r).parent = r.parent)
    (keeps' : ∀ r, (change' r).nested = r.nested ∧ (change' r).parent = r.parent)
    (step : ∀ r r', r.Respaced strict r' → (change r).Respaced strict (change' r')) :
    Respaced strict (sheet.modify id change keeps) (sheet'.modify id change' keeps') := by
  refine ⟨?_, related.items, related.vars⟩
  rw [Sheet.modify, Sheet.modify, Array.toList_modify, Array.toList_modify]
  exact forall₂_modify related.rulesets step id

theorem define (name : String) {value value' : Tokens}
    (same : Tokens.Respaced false value value') : Respaced strict (sheet.define name value) (sheet'.define name value') :=
  ⟨related.rulesets, related.items, related.vars.insert name same⟩

theorem defineIn (id : Nat) (name : String) {value value' : Tokens}
    (same : Tokens.Respaced false value value') :
    Respaced strict (sheet.defineIn id name value) (sheet'.defineIn id name value') :=
  related.modify id _ _ fun _ _ each => { each with vars := each.vars.insert name same }

theorem addStatement (id : Nat) {statement statement' : Tokens}
    (same : Statement.Respaced strict statement statement') :
    Respaced strict (sheet.addStatement id statement) (sheet'.addStatement id statement') :=
  related.modify id _ _ fun _ _ each => { each with statements := rel_append each.statements (.cons same .nil) }

theorem addItem {item item' : Item} (same : item.Respaced item')
    (other : ∀ id, item ≠ .ruleset id) (other' : ∀ id, item' ≠ .ruleset id) :
    Respaced strict (sheet.addItem item other) (sheet'.addItem item' other') :=
  ⟨related.rulesets, rel_append related.items (.cons same .nil), related.vars⟩

end

theorem newRuleset {selector selector' : Selector} (head : selector.Respaced strict selector')
    {kind kind' : RulesetKind} (same : kind.Respaced kind') (parent : Option Nat) :
    (Sheet.newRuleset selector kind parent).Respaced strict (Sheet.newRuleset selector' kind' parent) :=
  ⟨head, same, rfl, rfl, .nil, .empty⟩

theorem addRoot (related : Respaced strict sheet sheet') {selector selector' : Selector}
    (head : selector.Respaced strict selector') {kind kind' : RulesetKind} (same : kind.Respaced kind') :
    Respaced strict (sheet.addRoot selector kind) (sheet'.addRoot selector' kind') := by
  refine ⟨?_, ?_, related.vars⟩
  · rw [Sheet.addRoot, Sheet.addRoot, Array.toList_push, Array.toList_push]
    exact rel_append related.rulesets (.cons (newRuleset head same none) .nil)
  · have last : Item.Respaced (.ruleset sheet.rulesets.size) (.ruleset sheet'.rulesets.size) := by
      rw [related.size]
      exact .ruleset _
    exact rel_append related.items (.cons last .nil)

theorem addNested (related : Respaced strict sheet sheet') {parent : sheet.Id} {parent' : sheet'.Id}
    (place : parent'.val = parent.val) {selector selector' : Selector} (head : selector.Respaced strict selector')
    {kind kind' : RulesetKind} (same : kind.Respaced kind') :
    Respaced strict (sheet.addNested parent selector kind) (sheet'.addNested parent' selector' kind') := by
  refine ⟨?_, related.items, related.vars⟩
  rw [Sheet.addNested, Sheet.addNested, Array.toList_modify, Array.toList_modify, Array.toList_push,
    Array.toList_push, place, related.size]
  have more := rel_append related.rulesets (.cons (newRuleset head same (some parent.val)) .nil)
  refine forall₂_modify more (fun first second each => ?_) parent.val
  have nested : second.nested ++ [sheet.rulesets.size] = first.nested ++ [sheet.rulesets.size] := by rw [each.nested]
  exact ⟨each.selector, each.kind, each.parent, nested, each.statements, each.vars⟩

end Sheet.Respaced

/-! ### Statements that have just ended -/

theorem respaced_readVariable (respaced : Tokens.Respaced strict tokens others) :
    Agree (Option.Rel fun entry entry' : String × Tokens =>
      entry'.1 = entry.1 ∧ Tokens.Respaced strict entry.2 entry'.2) (readVariable? tokens) (readVariable? others) := by
  unfold readVariable?
  rcases respaced.cases_head with ⟨rfl, rfl⟩ | ⟨first, first', rest, rest', rfl, rfl, twin, same⟩ |
    ⟨first, first', rest, rest', rfl, rfl, gap, gap'⟩
  · exact .ok .none
  · rcases same.trimLeft_cases with ⟨start, start'⟩ | ⟨mark, mark', value, value', start, start', twin', same'⟩
    · dsimp only
      rw [start, start']
      exact .ok .none
    · dsimp only
      rw [start, start']
      dsimp only
      rw [twin.kind, twin.text, twin'.kind, same'.trim.isEmpty]
      refine Agree.ite (fun _ => ?_) fun _ => .ok .none
      exact Agree.ite (fun _ => .error _ _) fun _ => .ok (.some ⟨rfl, same'.trim⟩)
  · dsimp only
    rw [gap.kind, gap'.kind]
    cases trimLeft rest <;> cases trimLeft rest' <;> exact .ok .none

theorem respaced_readAtRule (respaced : Tokens.Respaced strict tokens others) :
    Option.Rel (fun first second : Token × Tokens => first.1.Twin second.1 ∧ Tokens.Respaced strict first.2 second.2)
      (readAtRule? tokens) (readAtRule? others) := by
  unfold readAtRule?
  rcases respaced.cases_head with ⟨rfl, rfl⟩ | ⟨first, first', rest, rest', rfl, rfl, twin, same⟩ |
    ⟨first, first', rest, rest', rfl, rfl, gap, gap'⟩
  · exact .none
  · dsimp only
    rw [twin.kind]
    split
    · exact .some ⟨twin, same.trim⟩
    · exact .none
  · dsimp only
    rw [gap.kind, gap'.kind]
    exact .none

/-- The tokens of a statement that begins with `first`. Unless they are the same in the reading
asked for, they become neither a selector nor a directive; `opens` tells whether a block follows. -/
structure Tokens.RespacedRaw (strict opens : Bool) (first : Token) (tokens others : Tokens) : Prop where
  loose : Respaced false tokens others
  tight : Respaced strict tokens others ∨ (first.text ≠ "&" ∧ (opens = true → first.kind = .atKeyword))
  plain : strict = false → ∀ token ∈ tokens, token.text ≠ "extend"

namespace Tokens.RespacedRaw

variable {opens : Bool} {first : Token}

theorem trim (raw : RespacedRaw strict opens first tokens others) :
    RespacedRaw strict opens first tokens.trim others.trim := by
  refine ⟨raw.loose.trim, raw.tight.imp Respaced.trim id, fun loose token member => raw.plain loose token ?_⟩
  obtain ⟨before, after, _, _, same⟩ := exists_trim tokens
  rw [same]
  simp [member]

theorem statement (raw : RespacedRaw strict opens first tokens others)
    (start : tokens.head? = none ∨ tokens.head? = some first) : Statement.Respaced strict tokens others := by
  refine ⟨raw.loose, ?_⟩
  rcases raw.tight with tight | ⟨other, _⟩
  · exact Statement.respaced_extends tight raw.plain
  · have head : tokens.headText? ≠ some "&" := by
      rcases start with start | start
      · simp [headText?, start]
      · simpa [headText?, start] using other
    have head' : others.headText? ≠ some "&" := by
      have same : (others.headText? == some "&") = (tokens.headText? == some "&") :=
        raw.loose.headText? (by decide +kernel)
      rwa [Ne, ← beq_iff_eq, same, beq_iff_eq]
    rw [Statement.extends?_of_other head, Statement.extends?_of_other head']
    exact .none

/-- The head of a block is a selector in the reading asked for, unless it is an at-rule. -/
theorem selector (raw : RespacedRaw strict true first tokens others) (start : tokens.head? = some first)
    (other : readAtRule? tokens = none) : (Selector.read tokens).Respaced strict (Selector.read others) := by
  rcases raw.tight with tight | ⟨_, keyword⟩
  · exact Selector.respaced_read tight raw.plain
  · cases tokens with
    | nil => cases start
    | cons token rest =>
      cases start
      rw [readAtRule?, if_pos (keyword rfl)] at other
      cases other

end Tokens.RespacedRaw

/-! ### Drafts -/

structure Draft.Respaced (strict : Bool) (draft draft' : Draft) : Prop where
  sheet : draft.sheet.Respaced strict draft'.sheet
  path : draft'.path = draft.path

inductive Draft.Begins (token : Token) : Option Token → Option Token → Prop where
  | skipped (passed : (token.isBlank || token.kind = .braceClose) = true) : Begins token none none
  | started {token' : Token} (passed : (token.isBlank || token.kind = .braceClose) = false) (twin : token.Twin token') :
      Begins token (some token) (some token')

namespace Draft.Respaced

variable {draft draft' : Draft}

section

variable (related : Respaced strict draft draft')

include related

theorem vars : draft.vars.Respaced false draft'.vars := by
  unfold Draft.vars
  rw [related.path]
  cases draft.path with
  | nil => exact related.sheet.vars
  | cons id _ =>
    have found := forall₂_getElem? related.sheet.rulesets id
    dsimp only
    rw [← Array.getElem?_toList, ← Array.getElem?_toList]
    generalize draft.sheet.rulesets.toList[id]? = first at found ⊢
    generalize draft'.sheet.rulesets.toList[id]? = second at found ⊢
    cases found with
    | none => exact .empty
    | some same => exact same.vars

theorem close : Respaced strict draft.close draft'.close := by
  obtain ⟨sheet, path, inside⟩ := draft
  obtain ⟨sheet', path', inside'⟩ := draft'
  obtain ⟨sheets, paths⟩ := related
  dsimp only at paths sheets
  subst paths
  cases path' with
  | nil => exact ⟨sheets, rfl⟩
  | cons id path => exact ⟨sheets, rfl⟩

theorem define (name : String) {value value' : Tokens} (same : Tokens.Respaced false value value') :
    Logged.Agree (Respaced strict) (draft.define name value) (draft'.define name value') := by
  have known := related.vars.contains name
  obtain ⟨sheet, path, inside⟩ := draft
  obtain ⟨sheet', path', inside'⟩ := draft'
  obtain ⟨sheets, paths⟩ := related
  dsimp only at paths sheets
  subst paths
  rw [Draft.define.eq_def, Draft.define.eq_def (⟨sheet', path', inside'⟩ : Draft), known]
  cases path' with
  | nil =>
    have done : Respaced strict ⟨sheet.define name value, [], by simp⟩ ⟨sheet'.define name value', [], by simp⟩ :=
      ⟨sheets.define name same, rfl⟩
    exact agree_ite (fun _ => agree_report_bind _ _ _ _ (agree_pure done)) fun _ => agree_pure done
  | cons id path =>
    have done : Respaced strict ⟨sheet.defineIn id name value, id :: path, by simpa [Sheet.defineIn] using inside⟩
        ⟨sheet'.defineIn id name value', id :: path, by simpa [Sheet.defineIn] using inside'⟩ :=
      ⟨sheets.defineIn id name same, rfl⟩
    exact agree_ite (fun _ => agree_report_bind _ _ _ _ (agree_pure done)) fun _ => agree_pure done

theorem enter {selector selector' : Selector}
    (head : selector.Respaced strict selector') {kind kind' : RulesetKind} (same : kind.Respaced kind') :
    Respaced strict (draft.enter selector kind) (draft'.enter selector' kind') := by
  obtain ⟨sheet, path, inside⟩ := draft
  obtain ⟨sheet', path', inside'⟩ := draft'
  obtain ⟨sheets, paths⟩ := related
  dsimp only at paths sheets
  subst paths
  have size := sheets.size
  cases path' with
  | nil => exact ⟨sheets.addRoot head same, congrArg (fun n => [n]) size⟩
  | cons id path => exact ⟨sheets.addNested rfl head same, congrArg (fun n => n :: id :: path) size⟩

theorem openBlock (first first' : Token) {head head' : Tokens} {key : Token}
    (raw : Tokens.RespacedRaw strict true key head head') (start : head.head? = none ∨ head.head? = some key) :
    Agree (Respaced strict) (draft.openBlock first head) (draft'.openBlock first' head') := by
  rw [Draft.openBlock, Draft.openBlock, raw.loose.isEmpty]
  cases empty : head.isEmpty with
  | true => exact .error _ _
  | false =>
    refine (respaced_readVariable raw.loose).bind fun var var' same => ?_
    rw [isSome_of_rel same]
    cases var.isSome with
    | true => exact .error _ _
    | false =>
      have rule := respaced_readAtRule raw.loose
      generalize found : readAtRule? head = atRule at rule ⊢
      generalize readAtRule? head' = atRule' at rule ⊢
      cases rule with
      | none =>
        -- Which blanks matter depends on the first token, so it has to be the one that was looked at.
        have begins : head.head? = some key := start.resolve_left fun none_ => by
          rw [List.head?_eq_none_iff.mp none_] at empty
          cases empty
        exact .ok (related.enter (raw.selector begins found) .plain)
      | @some atRule atRule' same =>
        obtain ⟨keyword, params⟩ := atRule
        obtain ⟨keyword', params'⟩ := atRule'
        obtain ⟨twin, same⟩ := same
        dsimp only at twin same ⊢
        rw [twin.text, related.path]
        exact .ok (related.enter Selector.respaced_empty (.atBlock _ twin same))

theorem addItem {statement statement' : Tokens} (same : Tokens.Respaced false statement statement') :
    Agree (Respaced strict) (draft.addItem statement) (draft'.addItem statement') := by
  have rule := respaced_readAtRule same
  rw [Draft.addItem, Draft.addItem, isSome_of_rel (MixinCall.respaced_read same)]
  generalize readAtRule? statement = atRule at rule ⊢
  generalize readAtRule? statement' = atRule' at rule ⊢
  cases rule with
  | none =>
    refine Agree.ite (fun _ => ?_) fun _ => .error _ _
    exact .ok ⟨related.sheet.addItem (.call same) (by simp) (by simp), related.path⟩
  | some rule => exact .ok ⟨related.sheet.addItem (.atRule rule.1 rule.2) (by simp) (by simp), related.path⟩

theorem endStatement {statement statement' : Tokens} (same : Statement.Respaced strict statement statement') :
    Logged.Agree (Respaced strict) (draft.endStatement statement) (draft'.endStatement statement') := by
  rw [Draft.endStatement.eq_def, Draft.endStatement.eq_def draft', same.tokens.isEmpty]
  refine agree_ite (fun _ => agree_pure related) fun _ => ?_
  refine (agree_ofExcept (respaced_readVariable same.tokens)).bind fun var var' found => ?_
  cases found with
  | @some entry entry' value =>
    obtain ⟨name, value⟩ := entry
    obtain ⟨name', value'⟩ := entry'
    obtain ⟨equal, respaced⟩ := value
    dsimp only at equal respaced
    subst equal
    exact related.define name' respaced
  | none =>
    have item := related.addItem same.tokens
    obtain ⟨sheet, path, inside⟩ := draft
    obtain ⟨sheet', path', inside'⟩ := draft'
    obtain ⟨sheets, paths⟩ := related
    dsimp only at paths sheets
    subst paths
    cases path' with
    | nil => exact agree_ofExcept item
    | cons id path => exact agree_pure ⟨sheets.addStatement id same, rfl⟩

theorem stepBetween {advance advance' : Except Error Unit}
    (goes : Agree (fun _ _ => True) advance advance') {token token' : Token} (like : token.Like token') :
    Agree (fun first second : Draft × Option Token => first.1.Respaced strict second.1 ∧
      Begins token first.2 second.2) (draft.stepBetween advance token) (draft'.stepBetween advance' token') := by
  rw [Draft.stepBetween, Draft.stepBetween]
  rcases like with twin | ⟨gap, gap', _⟩
  · rw [twin.solid, twin.solid', twin.kind, related.path]
    refine Agree.ite (fun blank => absurd blank Bool.false_ne_true) fun _ => ?_
    refine Agree.ite (fun closes => ?_) fun closes => .ok ⟨related, .started (by simp [twin.solid, closes]) twin⟩
    refine Agree.ite (fun _ => .error _ _) fun _ => ?_
    exact goes.bind fun _ _ _ => .ok ⟨related.close, .skipped (by simp [closes])⟩
  · rw [gap.isBlank, gap'.isBlank]
    exact goes.bind fun _ _ _ => .ok ⟨related, .skipped (by simp [gap.isBlank])⟩

end

end Draft.Respaced

/-! ### Reading token by token -/

/-- Whether the statement that goes on with these tokens is the head of a block. -/
def Tokens.opensBlock (depth : Nat) : Tokens → Bool
  | [] => false
  | token :: rest =>
    if token.kind = .braceClose || (token.kind = .delimiter && depth == 0) then false
    else (token.kind = .braceOpen && depth == 0) || opensBlock (token.kind.depthAfter depth) rest

def Phase.placeWithin (first : Token) (depth : Nat) (token : Token) : Option (Token × Nat) :=
  if token.kind = .braceClose || (token.kind = .delimiter && depth == 0) || (token.kind = .braceOpen && depth == 0) then
    none
  else some (first, token.kind.depthAfter depth)

def Phase.placeAfter (place : Option (Token × Nat)) (token : Token) : Option (Token × Nat) :=
  match place with
  | some (first, depth) => placeWithin first depth token
  | none => if token.isBlank || token.kind = .braceClose then none else placeWithin token 0 token

def Phase.place : Phase → Option (Token × Nat)
  | .between => none
  | .within first _ depth => some (first, depth)

inductive Phase.Respaced (strict : Bool) (rest : Tokens) : Phase → Phase → Prop where
  | between : Respaced strict rest .between .between
  | within {first first' : Token} {seen seen' : Tokens} (depth : Nat) (twin : first.Twin first')
      (raw : Tokens.RespacedRaw strict (rest.opensBlock depth) first seen.reverse seen'.reverse)
      (start : seen.reverse.head? = some first) :
      Respaced strict rest (.within first seen depth) (.within first' seen' depth)

theorem Token.Like.respaced {first second : Token} (like : first.Like second) : Tokens.Respaced strict [first] [second] := by
  rcases like with twin | ⟨gap, gap', same⟩
  · exact .singleton twin
  · exact Tokens.Respaced.nil.cons_gap gap gap' same

theorem Token.Like.asRead {first second : Token} (like : first.Like second) :
    Draft.asRead first = first ∧ Draft.asRead second = second := by
  have other : first.kind ≠ .comment := by
    rcases like with twin | ⟨gap, _, _⟩
    · intro same
      have solid := twin.solid
      rw [Token.isBlank, same] at solid
      cases solid
    · simp [gap.kind]
  rw [Draft.asRead, Draft.asRead, like.kind, if_neg other, if_neg other]
  exact ⟨rfl, rfl⟩

structure Draft.Stepped (strict : Bool) (rest : Tokens) (place : Option (Token × Nat)) (next next' : Draft × Phase) : Prop where
  draft : next.1.Respaced strict next'.1
  phase : next.2.Respaced strict rest next'.2
  place : next.2.place = place

theorem Draft.head_statementOf {seen : Tokens} {first : Token} (start : seen.reverse.head? = some first)
    (solid : first.isBlank = false) : (statementOf seen).head? = none ∨ (statementOf seen).head? = some first := by
  have trimmed : trimLeft seen.reverse = seen.reverse := trimLeft_eq_self_iff.mpr fun token same => by
    cases start.symm.trans same
    exact solid
  obtain ⟨after, _, same⟩ := exists_trimRight seen.reverse
  rw [statementOf, trim, trimmed]
  cases left : trimRight seen.reverse with
  | nil => exact .inl rfl
  | cons token rest =>
    rw [left] at same
    rw [same] at start
    exact .inr start

namespace Draft.Respaced

variable {draft draft' : Draft}

theorem stepWithin (related : Respaced strict draft draft') {advance advance' : Except Error Unit}
    (goes : Agree (fun _ _ => True) advance advance') {first first' : Token} (twin : first.Twin first')
    {seen seen' : Tokens} (depth : Nat) {token token' : Token} (like : token.Like token') (rest : Tokens)
    (raw : Tokens.RespacedRaw strict (opensBlock depth (token :: rest)) first seen.reverse seen'.reverse)
    (start : seen.reverse.head? = some first ∨ (seen = [] ∧ token = first))
    (plain : strict = false → token.text ≠ "extend") :
    Logged.Agree (Stepped strict rest (Phase.placeWithin first depth token))
      (draft.stepWithin advance first seen depth token) (draft'.stepWithin advance' first' seen' depth token') := by
  have begins : (statementOf seen).head? = none ∨ (statementOf seen).head? = some first := by
    rcases start with start | ⟨rfl, _⟩
    · exact head_statementOf start twin.solid
    · exact .inl rfl
  have ended : Logged.Agree (Respaced strict) (draft.endStatement (statementOf seen))
      (draft'.endStatement (statementOf seen')) := related.endStatement (raw.trim.statement begins)
  rw [Draft.stepWithin, Draft.stepWithin, like.kind]
  refine agree_ite (fun closes => ?_) fun closes => ?_
  · have place : Phase.placeWithin first depth token = none := if_pos (by simp [closes])
    refine agree_ite (fun _ => agree_throw _ _) fun _ => ?_
    refine ended.bind fun draft draft' related => ?_
    exact (agree_ofExcept (related.stepBetween goes like)).bind fun _ _ next =>
      agree_pure ⟨next.1, .between, place.symm⟩
  refine agree_ite (fun ends => ?_) fun ends => ?_
  · have place : Phase.placeWithin first depth token = none := if_pos (by rw [ends, Bool.or_true, Bool.true_or])
    refine (agree_ofExcept goes).bind fun _ _ _ => ?_
    exact ended.bind fun _ _ related => agree_pure ⟨related, .between, place.symm⟩
  -- The statement goes on, and whether it opens a block is settled by the tokens behind.
  have goesOn : opensBlock depth (token :: rest) =
      ((token.kind = .braceOpen && depth == 0) || opensBlock (token.kind.depthAfter depth) rest) := by
    rw [opensBlock, if_neg]
    rw [Bool.or_eq_true, not_or, decide_eq_true_eq]
    exact ⟨closes, ends⟩
  refine agree_ite (fun opens => ?_) fun opens => ?_
  · have opened : opensBlock depth (token :: rest) = true := by rw [goesOn, opens, Bool.true_or]
    have place : Phase.placeWithin first depth token = none := if_pos (by rw [opens, Bool.or_true])
    rw [opened] at raw
    refine (agree_ofExcept goes).bind fun _ _ _ => ?_
    exact (agree_ofExcept (related.openBlock first first' raw.trim begins)).bind fun _ _ related =>
      agree_pure ⟨related, .between, place.symm⟩
  · have opened : opensBlock depth (token :: rest) = opensBlock (token.kind.depthAfter depth) rest := by
      rw [goesOn, Bool.eq_false_iff.mpr opens, Bool.false_or]
    have place : Phase.placeWithin first depth token = some (first, token.kind.depthAfter depth) := by
      rw [Phase.placeWithin, if_neg]
      rw [Bool.eq_false_iff.mpr opens, Bool.eq_false_iff.mpr ends, Bool.or_false, Bool.or_false, decide_eq_true_eq]
      exact closes
    refine (agree_ofExcept goes).bind fun _ _ _ => agree_pure ⟨related, ?_, place.symm⟩
    rw [like.asRead.1, like.asRead.2]
    refine .within _ twin ⟨?_, ?_, ?_⟩ ?_
    · rw [reverse_cons, reverse_cons]
      exact raw.loose.append like.respaced
    · rw [reverse_cons, reverse_cons, ← opened]
      exact raw.tight.imp (·.append like.respaced) id
    · intro loose word member
      rw [reverse_cons, mem_append, mem_singleton] at member
      rcases member with old | rfl
      · exact raw.plain loose word old
      · exact plain loose
    · rw [reverse_cons]
      rcases start with start | ⟨rfl, same⟩
      · rw [List.head?_append, start]
        rfl
      · exact congrArg some same

theorem step (related : Respaced strict draft draft') {advance advance' : Except Error Unit}
    (goes : Agree (fun _ _ => True) advance advance') {token token' : Token} (like : token.Like token') (rest : Tokens)
    {phase phase' : Phase} (phases : phase.Respaced strict (token :: rest) phase')
    (plain : strict = false → token.text ≠ "extend") :
    Logged.Agree (Stepped strict rest (Phase.placeAfter phase.place token))
      (draft.step phase advance token) (draft'.step phase' advance' token') := by
  cases phases with
  | within depth twin raw start => exact related.stepWithin goes twin depth like rest raw (.inl start) plain
  | between =>
    rw [Draft.step, Draft.step]
    refine (agree_ofExcept (related.stepBetween goes like)).bind fun next next' both => ?_
    obtain ⟨draft, first⟩ := next
    obtain ⟨draft', first'⟩ := next'
    obtain ⟨related, begins⟩ := both
    dsimp only at related begins
    cases begins with
    | skipped passed => exact agree_pure ⟨related, .between, (if_pos passed).symm⟩
    | started passed twin =>
      have nothing : Tokens.RespacedRaw strict (opensBlock 0 (token :: rest)) token ([] : Tokens).reverse
          ([] : Tokens).reverse := ⟨.nil, .inl .nil, fun _ _ => nofun⟩
      rw [Phase.place, Phase.placeAfter, if_neg (by rw [passed]; exact Bool.false_ne_true)]
      exact related.stepWithin goes twin 0 (.inl twin) rest nothing (.inr ⟨rfl, rfl⟩) plain

theorem finish (related : Respaced strict draft draft') {phase phase' : Phase} (phases : phase.Respaced strict [] phase')
    (position position' : Position) :
    Logged.Agree (Sheet.Respaced strict) (draft.finish phase position) (draft'.finish phase' position') := by
  have ends {draft draft' : Draft} (related : Respaced strict draft draft') (eos eos' : Token) :
      Logged.Agree (Sheet.Respaced strict)
        (if draft.path.isEmpty then pure draft.sheet else throw (.unexpected eos .blockEnd))
        (if draft'.path.isEmpty then pure draft'.sheet else throw (.unexpected eos' .blockEnd)) := by
    rw [related.path]
    exact agree_ite (fun _ => agree_pure related.sheet) fun _ => agree_throw _ _
  rw [Draft.finish.eq_def, Draft.finish.eq_def draft']
  cases phases with
  | between => exact ends related _ _
  | within depth twin raw start =>
    refine agree_ite (fun _ => agree_throw _ _) fun _ => ?_
    have ended := related.endStatement (raw.trim.statement (head_statementOf start twin.solid))
    exact ended.bind fun _ _ related => ends related _ _

/-- Reading goes on with tokens that are the same one by one. -/
theorem run {ending ending' : Except Error Position} (ends : Agree (fun _ _ => True) ending ending')
    (related : Respaced strict draft draft') {tokens others : Tokens} (same : List.Forall₂ Token.Like tokens others)
    {phase phase' : Phase} (phases : phase.Respaced strict tokens phase')
    (plain : strict = false → ∀ token ∈ tokens, token.text ≠ "extend") :
    Logged.Agree (Sheet.Respaced strict) (draft.run ending phase tokens) (draft'.run ending' phase' others) := by
  induction same generalizing draft draft' phase phase' with
  | nil =>
    rw [Draft.run, Draft.run]
    exact (agree_ofExcept ends).bind fun position position' _ => related.finish phases position position'
  | @cons token token' rest rest' like same ih =>
    have goes : Agree (fun _ _ => True) (if rest.isEmpty then ending.map fun _ => () else .ok ())
        (if rest'.isEmpty then ending'.map fun _ => () else .ok ()) := by
      rw [isEmpty_of_forall₂ same]
      exact Agree.ite (fun _ => ends.map fun _ _ _ => trivial) fun _ => .ok trivial
    rw [Draft.run, Draft.run]
    refine (related.step goes like rest phases fun loose => plain loose token mem_cons_self).bind fun next next' both => ?_
    exact ih both.draft both.phase fun loose word member => plain loose word (mem_cons_of_mem _ member)

end Draft.Respaced

/-! ### Blanks that are cut in two ways -/

def Phase.pass (run : Tokens) : Phase → Phase
  | .between => .between
  | .within first seen depth => .within first (run.reverse ++ seen) depth

theorem Draft.run_gaps (ending : Except Error Position) (draft : Draft) (phase : Phase) {run : Tokens} (some_ : run ≠ [])
    (each : ∀ token ∈ run, token.Gap) (tokens : Tokens) :
    draft.run ending phase (run ++ tokens) =
      ofExcept (if tokens.isEmpty then ending.map fun _ => () else .ok ()) >>= fun _ =>
        draft.run ending (phase.pass run) tokens := by
  -- Between statements blanks are dropped, within one they are seen; either way nothing else happens.
  have one {token : Token} (gap : token.Gap) (phase : Phase) (rest : Tokens) : draft.run ending phase (token :: rest) =
      ofExcept (if rest.isEmpty then ending.map fun _ => () else .ok ()) >>= fun _ =>
        draft.run ending (phase.pass [token]) rest := by
    rw [Draft.run]
    generalize (if rest.isEmpty then ending.map fun _ => () else .ok () : Except Error Unit) = advance
    cases phase with
    | between =>
      rw [step, stepBetween, if_pos gap.isBlank]
      cases advance <;> rfl
    | within first seen depth =>
      rw [step, stepWithin, gap.kind, asRead, gap.kind]
      cases advance <;> rfl
  induction run generalizing phase with
  | nil => exact absurd rfl some_
  | cons token more ih =>
    obtain ⟨first, others⟩ := forall_mem_cons.mp each
    cases more with
    | nil => exact one first phase tokens
    | cons next more =>
      rw [cons_append, one first, ih (phase.pass [token]) (cons_ne_nil _ _) others]
      cases phase with
      | between => rfl
      | within start seen depth =>
        simp only [Phase.pass, reverse_cons, List.append_assoc, cons_append, nil_append, reverse_nil]
        rfl

/-- Whether what stands at a place, before these tokens, belongs to a selector or to a statement
that begins with `&`. The head of an at-block is no selector. -/
def Tokens.inSelector (place : Option (Token × Nat)) (after : Tokens) : Bool :=
  place.any fun here => here.1.text == "&" || (here.1.kind != .atKeyword && after.opensBlock here.2)

theorem Tokens.opensBlock_gaps (depth : Nat) {run : Tokens} (each : ∀ token ∈ run, token.Gap) (tokens : Tokens) :
    opensBlock depth (run ++ tokens) = opensBlock depth tokens := by
  induction run with
  | nil => rfl
  | cons token run ih =>
    obtain ⟨first, others⟩ := forall_mem_cons.mp each
    rw [cons_append, opensBlock, first.kind, ← ih others]
    rfl

theorem Phase.Respaced.pass {run back : Tokens} {gap : Token} {phase phase' : Phase}
    (phases : phase.Respaced strict (run ++ back) phase') (covers : Tokens.Covers false run gap)
    (allowed : Tokens.Covers strict run gap ∨ inSelector phase.place back = false) :
    (phase.pass run).Respaced strict back (phase'.pass [gap]) := by
  cases phases with
  | between => exact .between
  | @within first first' seen seen' depth twin raw start =>
    rw [opensBlock_gaps depth covers.each] at raw
    rw [Phase.pass, Phase.pass]
    refine .within depth twin ⟨?_, ?_, ?_⟩ ?_
    · simpa using raw.loose.append (.gap covers .nil)
    · rcases allowed with tight | outside
      · refine raw.tight.imp (fun same => ?_) id
        simpa using same.append (.gap tight .nil)
      · right
        simpa [inSelector, Phase.place, imp_iff_not_or, or_comm] using outside
    · intro loose word member
      rw [reverse_append, reverse_reverse, mem_append] at member
      rcases member with old | new
      · exact raw.plain loose word old
      · exact (covers.each word new).text_ne (by decide +kernel)
    · rw [reverse_append, List.head?_append, start]
      rfl

/-- Reading goes on with tokens that are the same one by one but for blanks at one place. Unless
the blanks are the same in the reading asked for, they belong to no selector. -/
theorem Draft.Respaced.run_around {draft draft' : Draft} {ending ending' : Except Error Position}
    (ends : Agree (fun _ _ => True) ending ending') (related : Respaced strict draft draft')
    {front front' back back' run : Tokens} {gap : Token} (same : List.Forall₂ Token.Like front front')
    (covers : Tokens.Covers false run gap) (following : List.Forall₂ Token.Like back back') {phase phase' : Phase}
    (phases : phase.Respaced strict (front ++ (run ++ back)) phase')
    (allowed : Tokens.Covers strict run gap ∨
      inSelector (front.foldl Phase.placeAfter phase.place) back = false)
    (plain : strict = false → ∀ token ∈ front ++ (run ++ back), token.text ≠ "extend") :
    Logged.Agree (Sheet.Respaced strict) (draft.run ending phase (front ++ (run ++ back)))
      (draft'.run ending' phase' (front' ++ gap :: back')) := by
  -- Step by step over the tokens that agree, up to the place of the blanks.
  induction same generalizing draft draft' phase phase' with
  | nil =>
    have whole : ∀ token ∈ [gap], token.Gap := forall_mem_singleton.mpr covers.whole
    have goes : Agree (fun _ _ => True) (if back.isEmpty then ending.map fun _ => () else .ok ())
        (if back'.isEmpty then ending'.map fun _ => () else .ok ()) := by
      rw [isEmpty_of_forall₂ following]
      exact Agree.ite (fun _ => ends.map fun _ _ _ => trivial) fun _ => .ok trivial
    rw [nil_append, nil_append, run_gaps ending draft phase covers.ne_nil covers.each,
      show gap :: back' = [gap] ++ back' from rfl, run_gaps ending' draft' phase' (cons_ne_nil _ _) whole]
    have behind : phase.Respaced strict (run ++ back) phase' := phases
    refine (agree_ofExcept goes).bind fun _ _ _ => related.run ends following (behind.pass covers allowed) ?_
    exact fun loose token member => plain loose token (by simp [member])
  | @cons token token' rest rest' like same ih =>
    have more : (rest ++ (run ++ back)).isEmpty = false := by simp [covers.ne_nil]
    have more' : (rest' ++ gap :: back').isEmpty = false := by simp
    rw [cons_append, cons_append, Draft.run, Draft.run, more, more']
    refine (related.step (.ok trivial) like _ phases fun loose => plain loose token mem_cons_self).bind
      fun next next' both => ?_
    refine ih both.draft both.phase ?_ fun loose word member => plain loose word (mem_cons_of_mem _ member)
    rwa [both.place]

end LessCss
