import LessCss.Proofs.Evaluator.Parts

/-! Lexical scopes: the variables of a ruleset, then those of the rulesets around
it from the inside out, then those of the sheet. While a ruleset without mixins
around it is evaluated, a name means in the stack of frames what it means there. -/

set_option autoImplicit false

namespace LessCss

namespace Sheet

variable {sheet : Sheet}

theorem parent_of_parentIn {id : sheet.Id} {parent : Option Nat}
    (found : parentIn sheet.rulesets id.val = parent) : (sheet.ruleset id).parent = parent := by
  rw [← found, parentIn, Array.getElem?_eq_getElem id.isLt]
  rfl

theorem parent?_eq_none {id : sheet.Id} (alone : (sheet.ruleset id).parent = none) :
    sheet.parent? id = none := by
  unfold parent?
  split
  · rfl
  · simp_all

theorem parent?_eq_some {id parent : sheet.Id} (before : parent < id)
    (found : (sheet.ruleset id).parent = some parent.val) :
    sheet.parent? id = some ⟨parent, before⟩ := by
  unfold parent?
  split
  · simp_all
  · rename_i p same
    cases found.symm.trans same
    rfl

theorem ancestors_nested {id : sheet.Id} {child : { c : sheet.Id // id < c }}
    (inside : child ∈ sheet.nested id) : sheet.ancestors child.val = id :: sheet.ancestors id := by
  obtain ⟨⟨c, member⟩, _, rfl⟩ := List.mem_map.mp inside
  have link := sheet.linked.nested id.val id.isLt c member
  let child : sheet.Id := ⟨c, link.2.1⟩
  have parent : (sheet.ruleset child).parent = some id.val := parent_of_parentIn link.2.2
  rw [ancestors, parent?_eq_some link.1 parent]

theorem ancestors_root {id : sheet.Id} (root : Entry.ruleset id ∈ sheet.entries) : sheet.ancestors id = [] := by
  obtain ⟨⟨item, member⟩, _, same⟩ := List.mem_map.mp root
  cases item with
  | ruleset i =>
    cases same
    let id : sheet.Id := ⟨i, (sheet.rooted i member).1⟩
    have alone : (sheet.ruleset id).parent = none := parent_of_parentIn (sheet.rooted i member).2
    rw [ancestors, parent?_eq_none alone]
  | atRule keyword params => cases same
  | call tokens => cases same

def outerScope (sheet : Sheet) (id : sheet.Id) : Scope :=
  (sheet.ancestors id).map (fun ancestor => (sheet.ruleset ancestor).vars) ++ [sheet.vars]

/-- What names mean in a ruleset: first its own variables count, then those of the
rulesets around it from the inside out, at last those of the sheet. -/
def lexicalScope (sheet : Sheet) (id : sheet.Id) : Scope :=
  (sheet.ruleset id).vars :: sheet.outerScope id

theorem outerScope_nested {id : sheet.Id} {child : { c : sheet.Id // id < c }}
    (inside : child ∈ sheet.nested id) : sheet.outerScope child.val = sheet.lexicalScope id := by
  rw [outerScope, ancestors_nested inside]
  rfl

theorem outerScope_root {id : sheet.Id} (root : Entry.ruleset id ∈ sheet.entries) :
    sheet.outerScope id = [sheet.vars] := by
  rw [outerScope, ancestors_root root]
  rfl

end Sheet

namespace Scope

theorem find?_append (first second : Scope) (name : String) :
    (first ++ second).find? name = (first.find? name).or (second.find? name) :=
  List.findSome?_append

theorem find?_cons (vars : Variables) (scope : Scope) (name : String) :
    find? (vars :: scope) name = (vars.get? name).or (scope.find? name) := by
  rw [find?, List.findSome?_cons]
  cases vars.get? name <;> rfl

end Scope

namespace Stack

variable {sheet : Sheet}

/-- The frame of a ruleset repeats what the frames around it have, in the same order. -/
theorem find?_ofRuleset (free : ∀ id : sheet.Id, (sheet.ruleset id).isMixin = false)
    {outer : Stack sheet} {id : sheet.Id}
    (lexical : ∀ name, outer.scope.find? name = (sheet.outerScope id).find? name) (name : String) :
    (Stack.scope (.ofRuleset id :: outer)).find? name = (sheet.lexicalScope id).find? name := by
  have around : ancestorScope (.ofRuleset id) outer =
      fun ancestor : sheet.Id => [(sheet.ruleset ancestor).vars] := by
    funext ancestor
    rw [ancestorScope, free ancestor]
    rfl
  -- The arguments and the returned variables of the frame are empty. The variables of
  -- the ancestors come up twice: once by the tree, and once more in the frames outside.
  have scope_eq : Stack.scope (.ofRuleset id :: outer) =
      (sheet.ruleset id).vars :: .empty :: .empty ::
        ((sheet.ancestors id).map (fun ancestor => (sheet.ruleset ancestor).vars) ++ outer.scope) := by
    rw [List.map_eq_flatMap, ← around]
    rfl
  have empty : Variables.empty.get? name = none := rfl
  have twice (first second : Option Tokens) : first.or (first.or second) = first.or second := by
    rw [← Option.or_assoc, Option.or_self]
  rw [scope_eq, Sheet.lexicalScope, Scope.find?_cons, Scope.find?_cons, Scope.find?_cons,
    Scope.find?_cons, Scope.find?_append, lexical, Sheet.outerScope, Scope.find?_append, empty,
    Option.none_or, Option.none_or, twice]

end Stack

namespace Scope

variable {library : Library} {scope scope' : Scope} (same : ∀ name, scope.find? name = scope'.find? name)

include same

theorem definition?_congr (active : List String) :
    scope.definition? library active = scope'.definition? library active := by
  funext name
  cases found : scope.find? name with
  | none =>
    have found' := (same name).symm.trans found
    rw [definition?_absent found, definition?_absent found']
  | some tokens =>
    have found' := (same name).symm.trans found
    rw [definition?_found found, definition?_found found']
    by_cases member : name ∈ active
    · rw [if_pos member, if_pos member]
    · rw [if_neg member, if_neg member, definition?_congr (name :: active)]
termination_by scope.idle active
decreasing_by exact idle_cons_lt (mem_names_of_find? found) member

theorem environment_congr : scope.environment library = scope'.environment library :=
  congrArg (Environment.mk library) (definition?_congr same [])

theorem evaluate_congr (tokens : Tokens) : scope.evaluate library tokens = scope'.evaluate library tokens := by
  rw [evaluate, evaluate, environment_congr same]

theorem interpolateTokens_congr (tokens : Tokens) :
    scope.interpolateTokens library tokens = scope'.interpolateTokens library tokens := by
  rw [interpolateTokens, interpolateTokens, environment_congr same]

end Scope

end LessCss
