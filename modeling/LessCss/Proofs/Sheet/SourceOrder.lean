import Mathlib.Data.List.FinRange
import Mathlib.Logic.Function.Iterate
import LessCss.Proofs.Yields
import LessCss.Proofs.Sheet.Forest
import LessCss.Sheet.Read

/-! The rulesets of a sheet that was read lie in the order of the text. Main statement:
each ruleset is held in one place, by the ruleset that it names as its parent or
else by none, and a walk from the outside in, first to last, meets the rulesets in
the order of their numbers. -/

set_option autoImplicit false

namespace LessCss

open List Logged Sheet

/-! ### Reading keeps the order -/

namespace Draft

/-- So far the rulesets are met in the order of their numbers, and the open ones lie at the right edge. -/
structure Grown (draft : Draft) : Prop where
  visits : draft.sheet.forest.Visits (draft.sheet.forest none) (List.range draft.sheet.rulesets.size)
  edge : draft.sheet.forest.Edge draft.path

namespace Grown

variable {draft : Draft} {sheet sheet' : Sheet} {path : List Nat}
  {inside : ∀ id ∈ path, id < sheet.rulesets.size} {inside' : ∀ id ∈ path, id < sheet'.rulesets.size}

theorem empty : Draft.empty.Grown := ⟨.nil, .nil⟩

theorem of_forest (grown : Grown ⟨sheet, path, inside⟩) (same : sheet'.forest = sheet.forest)
    (size : sheet'.rulesets.size = sheet.rulesets.size) : Grown ⟨sheet', path, inside'⟩ := by
  obtain ⟨visits, edge⟩ := grown
  refine ⟨?_, ?_⟩
  · dsimp only at visits ⊢
    rwa [same, size]
  · dsimp only at edge ⊢
    rwa [same]

theorem addStatement {id : Nat} {inside : ∀ other ∈ id :: path, other < sheet.rulesets.size}
    (grown : Grown ⟨sheet, id :: path, inside⟩) (statement : Tokens)
    {inside' : ∀ other ∈ id :: path, other < (sheet.addStatement id statement).rulesets.size} :
    Grown ⟨sheet.addStatement id statement, id :: path, inside'⟩ :=
  grown.of_forest (forest_modify ..) (size_modify ..)

theorem define (grown : draft.Grown) (name : String) (value : Tokens) :
    (draft.define name value).Yields Grown := by
  obtain ⟨sheet, path, inside⟩ := draft
  unfold Draft.define
  cases path with
  | nil => exact yields_reported (yields_pure (grown.of_forest rfl rfl))
  | cons id path =>
    exact yields_reported
      (yields_pure (grown.of_forest (forest_modify ..) (size_modify ..)))

theorem close (grown : draft.Grown) : draft.close.Grown := by
  obtain ⟨sheet, path, inside⟩ := draft
  cases path with
  | nil => exact grown
  | cons id path => exact ⟨grown.visits, grown.edge.tail⟩

/-- A new ruleset has the next number, and lies behind all others. -/
theorem of_add (grown : Grown ⟨sheet, path, inside⟩)
    (same : sheet'.forest = sheet.forest.add path.head? sheet.rulesets.size)
    (size : sheet'.rulesets.size = sheet.rulesets.size + 1)
    {inside' : ∀ id ∈ sheet.rulesets.size :: path, id < sheet'.rulesets.size} :
    Grown ⟨sheet', sheet.rulesets.size :: path, inside'⟩ := by
  obtain ⟨visits, edge⟩ := grown
  have apart : sheet.rulesets.size ∉ path := fun member => Nat.lt_irrefl _ (inside _ member)
  have visits' := visits.add nodup_range edge (forest_of_size_le (Nat.le_refl _)) apart
  refine ⟨?_, ?_⟩
  · dsimp only
    rw [same, size, range_succ]
    exact visits'
  · dsimp only
    rw [same]
    exact edge.add lt_of_mem_forest _

theorem enter (grown : draft.Grown) (selector : Selector) (kind : RulesetKind) :
    (draft.enter selector kind).Grown := by
  obtain ⟨sheet, path, inside⟩ := draft
  cases path with
  | nil => exact grown.of_add (forest_addRoot ..) (size_addRoot ..)
  | cons id path => exact grown.of_add (forest_addNested ..) (size_addNested ..)

end Grown

variable {draft : Draft}

theorem openBlock_eq_enter {first : Token} {head : Tokens} {next : Draft}
    (opened : draft.openBlock first head = .ok next) : ∃ selector kind, next = draft.enter selector kind := by
  rw [openBlock] at opened
  cases empty : head.isEmpty with
  | true =>
    rw [empty] at opened
    cases opened
  | false =>
    rw [empty] at opened
    -- A definition cannot open a block; an at-rule and a selector both enter one.
    cases found : readVariable? head with
    | error error =>
      rw [found] at opened
      cases opened
    | ok definition? =>
      cases definition? with
      | some definition =>
        rw [found] at opened
        cases opened
      | none =>
        rw [found] at opened
        cases rule : readAtRule? head with
        | none =>
          rw [rule] at opened
          cases opened
          exact ⟨_, _, rfl⟩
        | some rule_ =>
          rw [rule] at opened
          cases opened
          exact ⟨_, _, rfl⟩

namespace Grown

section

variable (grown : draft.Grown)

include grown

theorem addItem {statement : Tokens} {next : Draft}
    (added : draft.addItem statement = .ok next) : next.Grown := by
  rw [Draft.addItem] at added
  cases rule : readAtRule? statement with
  | some rule_ =>
    rw [rule] at added
    cases added
    exact grown.of_forest (forest_addItem ..) rfl
  | none =>
    rw [rule] at added
    dsimp only at added
    split at added
    · cases added
      exact grown.of_forest (forest_addItem ..) rfl
    · cases added

theorem endStatement (statement : Tokens) : (draft.endStatement statement).Yields Grown := by
  unfold Draft.endStatement
  split
  · exact yields_pure grown
  · refine .after fun found => ?_
    cases found with
    | some definition => exact grown.define definition.1 definition.2
    | none =>
      obtain ⟨sheet, path, inside⟩ := draft
      cases path with
      | nil => exact yields_ofExcept fun _ added => grown.addItem added
      | cons id path => exact yields_pure (grown.addStatement statement)

theorem openBlock {first : Token} {head : Tokens} {next : Draft}
    (opened : draft.openBlock first head = .ok next) : next.Grown := by
  obtain ⟨selector, kind, rfl⟩ := openBlock_eq_enter opened
  exact grown.enter selector kind

theorem stepBetween {advance : Except Error Unit} {token : Token}
    {next : Draft × Option Token} (stepped : draft.stepBetween advance token = .ok next) : next.1.Grown := by
  rw [Draft.stepBetween] at stepped
  split at stepped
  · cases advance <;> cases stepped
    exact grown
  · split at stepped
    · split at stepped
      · cases stepped
      · cases advance <;> cases stepped
        exact grown.close
    · cases stepped
      exact grown

theorem stepWithin (advance : Except Error Unit) (first : Token) (seen : Tokens) (depth : Nat) (token : Token) :
    (draft.stepWithin advance first seen depth token).Yields fun next => next.1.Grown := by
  rw [Draft.stepWithin]
  split
  · split
    · exact yields_throw _
    · refine (grown.endStatement _).bind fun draft grown => ?_
      refine Logged.Yields.bind (yields_ofExcept fun next stepped => grown.stepBetween stepped) ?_
      exact fun next grown => yields_pure grown
  · split
    · exact .after fun _ => (grown.endStatement _).bind fun draft grown => yields_pure grown
    · split
      · refine .after fun _ => Logged.Yields.bind (yields_ofExcept fun next opened => grown.openBlock opened) ?_
        exact fun draft grown => yields_pure grown
      · exact .after fun _ => yields_pure grown

theorem step (phase : Phase) (advance : Except Error Unit) (token : Token) :
    (draft.step phase advance token).Yields fun next => next.1.Grown := by
  cases phase with
  | within first seen depth => exact grown.stepWithin advance first seen depth token
  | between =>
    refine Logged.Yields.bind (yields_ofExcept fun next stepped => grown.stepBetween stepped) ?_
    rintro ⟨draft, start⟩ grown
    cases start with
    | none => exact yields_pure grown
    | some first => exact grown.stepWithin advance first [] 0 first

theorem finish (phase : Phase) (position : Position) :
    (draft.finish phase position).Yields fun sheet =>
      sheet.forest.Visits (sheet.forest none) (List.range sheet.rulesets.size) := by
  have last (draft : Draft) (grown : draft.Grown) : Logged.Yields
      (if draft.path.isEmpty then return draft.sheet else throw (.unexpected ⟨.eos, "", position⟩ .blockEnd))
      fun sheet => sheet.forest.Visits (sheet.forest none) (List.range sheet.rulesets.size) := by
    split
    · exact yields_pure grown.visits
    · exact yields_throw _
  cases phase with
  | between => exact last draft grown
  | within first seen depth =>
    rw [Draft.finish]
    dsimp only
    split
    · exact Logged.Yields.bind (yields_throw _) fun draft grown => last draft grown
    · exact (grown.endStatement _).bind last

theorem run (ending : Except Error Position) (phase : Phase) (tokens : Tokens) :
    (draft.run ending phase tokens).Yields fun sheet =>
      sheet.forest.Visits (sheet.forest none) (List.range sheet.rulesets.size) := by
  induction tokens generalizing draft phase with
  | nil => exact .after fun position => grown.finish phase position
  | cons token rest ih => exact (grown.step phase _ token).bind fun next grown => ih grown next.2

end

end Grown

end Draft

/-! ### Sheets in order -/

namespace Sheet

variable {sheet : Sheet}

def preorderAt (sheet : Sheet) (id : sheet.Id) : List sheet.Id :=
  id :: (sheet.nested id).flatMap fun child => preorderAt sheet child.val
termination_by sheet.rulesets.size - id.val
decreasing_by
  have : id.val < child.val.val := child.property
  omega

def preorder (sheet : Sheet) : List sheet.Id := sheet.roots.flatMap sheet.preorderAt

/-- The links of a sheet draw a forest that is numbered in the order of the text. -/
structure InOrder (sheet : Sheet) : Prop where
  /-- What is held, by a ruleset or by none, is a ruleset of the sheet. -/
  held : ∀ holder, ∀ id ∈ sheet.forest holder, id < sheet.rulesets.size
  /-- Parents have smaller numbers. -/
  parent : ∀ id parent, parentIn sheet.rulesets id = some parent → parent < id ∧ id < sheet.rulesets.size
  /-- Each ruleset is held in one place, that of its parent. -/
  once : ∀ id < sheet.rulesets.size, ∀ holder,
    (sheet.forest holder).count id = if parentIn sheet.rulesets id = holder then 1 else 0
  increasing : ∀ holder, (sheet.forest holder).Pairwise (· < ·)
  preorder : sheet.preorder = List.finRange sheet.rulesets.size
  /-- The way outwards along the parents ends behind the ancestors. -/
  ancestors : ∀ (id : sheet.Id) (steps : Nat),
    (fun place : Option Nat => place.bind (parentIn sheet.rulesets))^[steps] (some id.val) =
      ((id :: sheet.ancestors id)[steps]?).map Fin.val

theorem visits_preorderAt (id : sheet.Id) :
    sheet.forest.Visits [id.val] ((sheet.preorderAt id).map Fin.val) := by
  have inside (children : List { child : sheet.Id // id < child }) :
      sheet.forest.Visits (children.map fun child => child.val.val)
        ((children.flatMap fun child => sheet.preorderAt child.val).map Fin.val) := by
    induction children with
    | nil => exact .nil
    | cons child rest ih =>
      rw [flatMap_cons, map_append]
      exact (visits_preorderAt child.val).append ih
  have nested := inside (sheet.nested id)
  rw [map_nested_val, ← forest_id] at nested
  rw [preorderAt, map_cons]
  simpa using Forest.Visits.cons nested .nil
termination_by sheet.rulesets.size - id.val
decreasing_by
  have : id.val < child.val.val := child.property
  omega

theorem visits_preorder (sheet : Sheet) :
    sheet.forest.Visits (sheet.forest none) (sheet.preorder.map Fin.val) := by
  have all (roots : List sheet.Id) :
      sheet.forest.Visits (roots.map Fin.val) ((roots.flatMap sheet.preorderAt).map Fin.val) := by
    induction roots with
    | nil => exact .nil
    | cons root rest ih =>
      rw [flatMap_cons, map_append]
      exact (visits_preorderAt root).append ih
  have roots := all sheet.roots
  rwa [map_roots_val] at roots

theorem parentIn_id (id : sheet.Id) : parentIn sheet.rulesets id.val = (sheet.ruleset id).parent := by
  rw [parentIn, Array.getElem?_eq_getElem id.isLt]
  rfl

theorem iterate_parentIn (id : sheet.Id) (steps : Nat) :
    (fun place : Option Nat => place.bind (parentIn sheet.rulesets))^[steps] (some id.val) =
      ((id :: sheet.ancestors id)[steps]?).map Fin.val := by
  have nowhere (steps : Nat) :
      (fun place : Option Nat => place.bind (parentIn sheet.rulesets))^[steps] none = none :=
    Function.iterate_fixed rfl steps
  induction steps generalizing id with
  | zero => rfl
  | succ steps ih =>
    rw [Function.iterate_succ_apply, Option.bind_some, parentIn_id, ← map_parent?_val, List.getElem?_cons_succ,
      ancestors]
    cases sheet.parent? id with
    | none => exact nowhere steps
    | some parent => exact ih parent.val

section Visited

variable (visits : sheet.forest.Visits (sheet.forest none) (List.range sheet.rulesets.size))

include visits

theorem forest_sublist (holder : Option Nat) : (sheet.forest holder).Sublist (List.range sheet.rulesets.size) := by
  cases holder with
  | none => exact visits.sublist
  | some id =>
    by_cases bound : id < sheet.rulesets.size
    · obtain ⟨below, inside, sub⟩ := visits.exists_inside (mem_range.mpr bound)
      exact (inside.sublist.cons _).trans sub
    · rw [forest_of_size_le (by omega)]
      exact nil_sublist _

theorem preorderAt_sublist (id : sheet.Id) :
    ((sheet.preorderAt id).map Fin.val).Sublist (List.range sheet.rulesets.size) := by
  obtain ⟨below, inside, sub⟩ := visits.exists_inside (mem_range.mpr id.isLt)
  have alone := Forest.Visits.cons inside .nil
  rw [append_nil] at alone
  rwa [(visits_preorderAt id).unique alone]

theorem mem_forest_iff {id : Nat} (bound : id < sheet.rulesets.size) (holder : Option Nat) :
    id ∈ sheet.forest holder ↔ parentIn sheet.rulesets id = holder := by
  constructor
  · exact fun member => (parentIn_of_mem_forest member).2
  · intro named
    -- The ruleset is held somewhere, and whoever holds it is its parent.
    have somewhere : ∃ holder, id ∈ sheet.forest holder := by
      have listed := visits.perm.mem_iff.mp (mem_range.mpr bound)
      rcases mem_append.mp listed with outside | inside
      · exact ⟨none, outside⟩
      · obtain ⟨parent, _, member⟩ := mem_flatMap.mp inside
        exact ⟨some parent, member⟩
    obtain ⟨holder', member⟩ := somewhere
    have same : holder = holder' := named.symm.trans (parentIn_of_mem_forest member).2
    rwa [same]

theorem inOrder_of_visits : sheet.InOrder where
  held _ _ member := (parentIn_of_mem_forest member).1
  parent _ _ named := lt_of_parentIn named
  once id bound holder := by
    have distinct : (sheet.forest holder).Nodup := (forest_sublist visits holder).nodup nodup_range
    rw [distinct.count]
    simp only [mem_forest_iff visits bound]
  increasing holder := (pairwise_lt_range).sublist (forest_sublist visits holder)
  preorder := by
    apply map_injective_iff.mpr Fin.val_injective
    rw [map_coe_finRange_eq_range]
    exact (visits_preorder sheet).unique visits
  ancestors := iterate_parentIn

end Visited

/-- Whatever text was read, its rulesets form a forest in the order of the text. -/
theorem inOrder_of_read {source text : String} {sheet : Sheet}
    (read : (read source text).outcome.1 = .ok sheet) : sheet.InOrder :=
  inOrder_of_visits ((Draft.Grown.empty.run _ _ _).of_outcome read)

def nestedBlocks : String :=
  ".a \x7b .b \x7b c \x7b d: e; \x7d \x7d @media f \x7b g: h; \x7d \x7d @import i; .j \x7b k: l; \x7d"

theorem nestedBlocks_inOrder : ∃ sheet, (read "in" nestedBlocks).outcome.1 = .ok sheet ∧
    (List.range 5).map (fun id => sheet.forest (some id)) = [[1, 3], [2], [], [], []] ∧
    sheet.forest none = [0, 4] ∧ sheet.InOrder := by
  have checked : ((read "in" nestedBlocks).outcome.1.toOption.any fun sheet =>
      (List.range 5).map (fun id => sheet.forest (some id)) == [[1, 3], [2], [], [], []] &&
        sheet.forest none == [0, 4]) = true := by
    decide +kernel
  cases read : (read "in" nestedBlocks).outcome.1 with
  | error error =>
    rw [read] at checked
    cases checked
  | ok sheet =>
    rw [read] at checked
    simp only [Except.toOption, Option.any_some, Bool.and_eq_true, beq_iff_eq] at checked
    exact ⟨sheet, rfl, checked.1, checked.2, inOrder_of_read read⟩

end Sheet

end LessCss
