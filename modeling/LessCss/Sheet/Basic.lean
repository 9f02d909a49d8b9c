import LessCss.Selector
import LessCss.Variables

/-! The sheet: a forest of rulesets and at-blocks in the order of their opening
braces, with the statements and variables of each. A ruleset is named by its
index; it lies behind its parent and before its nested rulesets. -/

set_option autoImplicit false

namespace LessCss

open List

inductive RulesetKind where
  | plain
  /-- A block such as `@media`. One that bubbles takes the outer selector inside. -/
  | atBlock (keyword : Token) (params : Tokens) (bubbles : Bool)
  deriving DecidableEq, Repr

structure Ruleset where
  selector : Selector
  kind : RulesetKind
  parent : Option Nat
  nested : List Nat
  /-- Declarations, mixin calls and directives, told apart by evaluation only. -/
  statements : List Tokens
  vars : Variables
  deriving DecidableEq, Repr

def Ruleset.hold (child : Nat) (ruleset : Ruleset) : Ruleset :=
  { ruleset with nested := ruleset.nested ++ [child] }

def Ruleset.isMixin (ruleset : Ruleset) : Bool := ruleset.selector.isMixin

inductive Item where
  | ruleset (id : Nat)
  | atRule (keyword : Token) (params : Tokens)
  | call (tokens : Tokens)
  deriving DecidableEq, Repr

def parentIn (rulesets : Array Ruleset) (i : Nat) : Option Nat :=
  rulesets[i]?.bind Ruleset.parent

/-- Nested rulesets lie behind the one that they name as their parent; parents lie before. -/
structure Linked (rulesets : Array Ruleset) : Prop where
  nested (i : Nat) (h : i < rulesets.size) :
    ∀ c ∈ rulesets[i].nested, i < c ∧ c < rulesets.size ∧ parentIn rulesets c = some i
  parent (i : Nat) (h : i < rulesets.size) : ∀ p, rulesets[i].parent = some p → p < i

/-- The items that are rulesets are rulesets outside all others. -/
def Rooted (rulesets : Array Ruleset) (items : List Item) : Prop :=
  ∀ id, Item.ruleset id ∈ items → id < rulesets.size ∧ parentIn rulesets id = none

structure Sheet where
  rulesets : Array Ruleset
  items : List Item
  vars : Variables
  linked : Linked rulesets
  rooted : Rooted rulesets items

namespace Sheet

def empty : Sheet where
  rulesets := #[]
  items := []
  vars := .empty
  linked := ⟨fun _ h => by simp at h, fun _ h => by simp at h⟩
  rooted := by simp [Rooted]

/-! ### Views -/

abbrev Id (sheet : Sheet) : Type := Fin sheet.rulesets.size

def ruleset (sheet : Sheet) (id : sheet.Id) : Ruleset := sheet.rulesets[id]

def parent? (sheet : Sheet) (id : sheet.Id) : Option { p : sheet.Id // p < id } :=
  match found : (sheet.ruleset id).parent with
  | none => none
  | some p =>
    have before := sheet.linked.parent id.val id.isLt p found
    some ⟨⟨p, Nat.lt_trans before id.isLt⟩, before⟩

def nested (sheet : Sheet) (id : sheet.Id) : List { c : sheet.Id // id < c } :=
  (sheet.ruleset id).nested.attach.map fun child =>
    have link := sheet.linked.nested id.val id.isLt child.val child.property
    ⟨⟨child.val, link.2.1⟩, link.1⟩

def ancestors (sheet : Sheet) (id : sheet.Id) : List sheet.Id :=
  match sheet.parent? id with
  | none => []
  | some ⟨p, _⟩ => p :: ancestors sheet p
termination_by id.val

inductive Entry (sheet : Sheet) where
  | ruleset (id : sheet.Id)
  | atRule (keyword : Token) (params : Tokens)
  | call (tokens : Tokens)

def entries (sheet : Sheet) : List (Entry sheet) :=
  sheet.items.attach.map fun item =>
    match item with
    | ⟨.ruleset id, inside⟩ => .ruleset ⟨id, (sheet.rooted id inside).1⟩
    | ⟨.atRule keyword params, _⟩ => .atRule keyword params
    | ⟨.call tokens, _⟩ => .call tokens

def Entry.ruleset? {sheet : Sheet} : Entry sheet → Option sheet.Id
  | .ruleset id => some id
  | _ => none

def roots (sheet : Sheet) : List sheet.Id :=
  sheet.entries.filterMap Entry.ruleset?

/-! ### Growing a sheet -/

def addItem (sheet : Sheet) (item : Item) (other : ∀ id, item ≠ .ruleset id) : Sheet :=
  { sheet with
    items := sheet.items ++ [item]
    rooted := fun id member => by
      rcases mem_append.mp member with old | new
      · exact sheet.rooted id old
      · exact absurd (mem_singleton.mp new).symm (other id) }

def define (sheet : Sheet) (name : String) (value : Tokens) : Sheet :=
  { sheet with vars := sheet.vars.insert name value }

theorem parentIn_modify (rulesets : Array Ruleset) (id : Nat) (change : Ruleset → Ruleset)
    (keeps : ∀ r, (change r).parent = r.parent) (i : Nat) :
    parentIn (rulesets.modify id change) i = parentIn rulesets i := by
  unfold parentIn
  rw [Array.getElem?_modify]
  split
  · cases rulesets[i]? with
    | none => rfl
    | some ruleset => exact keeps ruleset
  · rfl

def modify (sheet : Sheet) (id : Nat) (change : Ruleset → Ruleset)
    (keeps : ∀ r, (change r).nested = r.nested ∧ (change r).parent = r.parent) : Sheet :=
  { sheet with
    rulesets := sheet.rulesets.modify id change
    linked := {
      nested := fun i h c member => by
        rw [Array.size_modify] at h
        rw [Array.getElem_modify] at member
        rw [Array.size_modify, parentIn_modify _ _ _ fun r => (keeps r).2]
        split at member
        · rw [(keeps _).1] at member; exact sheet.linked.nested i h c member
        · exact sheet.linked.nested i h c member
      parent := fun i h p found => by
        rw [Array.size_modify] at h
        rw [Array.getElem_modify] at found
        split at found
        · rw [(keeps _).2] at found; exact sheet.linked.parent i h p found
        · exact sheet.linked.parent i h p found }
    rooted := fun i member => by
      rw [Array.size_modify, parentIn_modify _ _ _ fun r => (keeps r).2]
      exact sheet.rooted i member }

@[simp] theorem size_modify (sheet : Sheet) (id : Nat) (change : Ruleset → Ruleset)
    (keeps : ∀ r, (change r).nested = r.nested ∧ (change r).parent = r.parent) :
    (sheet.modify id change keeps).rulesets.size = sheet.rulesets.size :=
  Array.size_modify

def defineIn (sheet : Sheet) (id : Nat) (name : String) (value : Tokens) : Sheet :=
  sheet.modify id (fun r => { r with vars := r.vars.insert name value }) fun _ => ⟨rfl, rfl⟩

def addStatement (sheet : Sheet) (id : Nat) (statement : Tokens) : Sheet :=
  sheet.modify id (fun r => { r with statements := r.statements ++ [statement] }) fun _ => ⟨rfl, rfl⟩

def newRuleset (selector : Selector) (kind : RulesetKind) (parent : Option Nat) : Ruleset :=
  ⟨selector, kind, parent, [], [], .empty⟩

theorem parentIn_push_lt (rulesets : Array Ruleset) (ruleset : Ruleset) {i : Nat}
    (inside : i < rulesets.size) : parentIn (rulesets.push ruleset) i = parentIn rulesets i := by
  unfold parentIn
  rw [Array.getElem?_push_lt inside, Array.getElem?_eq_getElem inside]

theorem parentIn_push_size (rulesets : Array Ruleset) (ruleset : Ruleset) :
    parentIn (rulesets.push ruleset) rulesets.size = ruleset.parent := by
  unfold parentIn
  rw [Array.getElem?_push_size]
  rfl

/-- Opens a ruleset outside all others; its index is the old number of rulesets. -/
def addRoot (sheet : Sheet) (selector : Selector) (kind : RulesetKind) : Sheet where
  rulesets := sheet.rulesets.push (newRuleset selector kind none)
  items := sheet.items ++ [.ruleset sheet.rulesets.size]
  vars := sheet.vars
  linked := {
    nested := fun i h c member => by
      rw [Array.getElem_push] at member
      rw [Array.size_push]
      split at member
      · obtain ⟨behind, inside, parent⟩ := sheet.linked.nested i (by assumption) c member
        exact ⟨behind, by omega, by rw [parentIn_push_lt _ _ inside, parent]⟩
      · cases member
    parent := fun i h p found => by
      rw [Array.getElem_push] at found
      split at found
      · exact sheet.linked.parent i (by assumption) p found
      · cases found }
  rooted := fun id member => by
    rw [Array.size_push]
    rcases mem_append.mp member with old | new
    · obtain ⟨inside, parent⟩ := sheet.rooted id old
      exact ⟨by omega, by rw [parentIn_push_lt _ _ inside, parent]⟩
    · cases mem_singleton.mp new
      exact ⟨by omega, parentIn_push_size _ _⟩

def addNested (sheet : Sheet) (parent : sheet.Id) (selector : Selector) (kind : RulesetKind) :
    Sheet where
  rulesets :=
    (sheet.rulesets.push (newRuleset selector kind (some parent.val))).modify parent.val
      (.hold sheet.rulesets.size)
  items := sheet.items
  vars := sheet.vars
  linked := {
    nested := fun i h c member => by
      have bound : parent.val < sheet.rulesets.size := parent.isLt
      rw [Array.size_modify, Array.size_push] at h
      rw [Array.getElem_modify] at member
      rw [Array.size_modify, Array.size_push, parentIn_modify _ _ (.hold _) fun _ => rfl]
      split at member
      · rename_i same
        subst same
        rw [Array.getElem_push_lt bound] at member
        rcases mem_append.mp member with old | new
        · obtain ⟨behind, inside, link⟩ := sheet.linked.nested parent.val bound c old
          exact ⟨behind, by omega, by rw [parentIn_push_lt _ _ inside, link]⟩
        · cases mem_singleton.mp new
          exact ⟨bound, by omega, parentIn_push_size _ _⟩
      · rw [Array.getElem_push] at member
        split at member
        · obtain ⟨behind, inside, link⟩ := sheet.linked.nested i (by assumption) c member
          exact ⟨behind, by omega, by rw [parentIn_push_lt _ _ inside, link]⟩
        · cases member
    parent := fun i h p found => by
      have bound : parent.val < sheet.rulesets.size := parent.isLt
      rw [Array.size_modify, Array.size_push] at h
      rw [Array.getElem_modify] at found
      split at found
      · rename_i same
        subst same
        rw [Array.getElem_push_lt bound] at found
        exact sheet.linked.parent parent.val bound p found
      · rw [Array.getElem_push] at found
        split at found
        · exact sheet.linked.parent i (by assumption) p found
        · cases found
          omega }
  rooted := fun id member => by
    obtain ⟨inside, link⟩ := sheet.rooted id member
    rw [Array.size_modify, Array.size_push, parentIn_modify _ _ (.hold _) fun _ => rfl]
    exact ⟨by omega, by rw [parentIn_push_lt _ _ inside, link]⟩

@[simp] theorem size_addRoot (sheet : Sheet) (selector : Selector) (kind : RulesetKind) :
    (sheet.addRoot selector kind).rulesets.size = sheet.rulesets.size + 1 :=
  Array.size_push _

@[simp] theorem size_addNested (sheet : Sheet) (parent : sheet.Id) (selector : Selector) (kind : RulesetKind) :
    (sheet.addNested parent selector kind).rulesets.size = sheet.rulesets.size + 1 := by
  simp [addNested]

end Sheet

end LessCss
