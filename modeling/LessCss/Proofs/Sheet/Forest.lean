import Mathlib.Data.List.Flatten
import LessCss.Sheet.Basic

/-! Forests of numbered nodes: for each node, and for the outside of all nodes, the
nodes that lie directly inside; and the forest that the links of a sheet draw. Main
statement: where the nodes are visited in the order of their numbers, they still are
after one more node was put behind the others inside a node that lies at the right edge. -/

set_option autoImplicit false

namespace LessCss

open List

abbrev Forest := Option Nat → List Nat

namespace Forest

/-- Visiting nodes one after the other, and after each node those inside it, lists these nodes. -/
inductive Visits (forest : Forest) : List Nat → List Nat → Prop where
  | nil : Visits forest [] []
  | cons {node : Nat} {rest below more : List Nat} (inside : Visits forest (forest (some node)) below)
      (behind : Visits forest rest more) : Visits forest (node :: rest) (node :: (below ++ more))

variable {forest other : Forest} {nodes nodes' list list' : List Nat} {node place : Nat}

namespace Visits

theorem append (first : Visits forest nodes list) (second : Visits forest nodes' list') :
    Visits forest (nodes ++ nodes') (list ++ list') := by
  induction first with
  | nil => exact second
  | cons inside behind _ ih =>
    rw [cons_append, cons_append, List.append_assoc]
    exact .cons inside ih

theorem exists_append (visits : Visits forest (nodes ++ nodes') list) :
    ∃ first second, list = first ++ second ∧ Visits forest nodes first ∧ Visits forest nodes' second := by
  induction nodes generalizing list with
  | nil => exact ⟨[], list, rfl, .nil, visits⟩
  | cons node rest ih =>
    cases visits with
    | cons inside behind =>
      obtain ⟨first, second, rfl, front, back⟩ := ih behind
      exact ⟨_, second, by simp, .cons inside front, back⟩

theorem exists_singleton (visits : Visits forest [node] list) :
    ∃ below, list = node :: below ∧ Visits forest (forest (some node)) below := by
  cases visits with
  | cons inside behind =>
    cases behind with
    | nil => exact ⟨_, by simp, inside⟩

section

variable (visits : Visits forest nodes list)

include visits

theorem unique (visits' : Visits forest nodes list') : list = list' := by
  induction visits generalizing list' with
  | nil => cases visits'; rfl
  | cons _ _ ih ih' =>
    cases visits' with
    | cons inside behind => rw [ih inside, ih' behind]

/-- A visit only depends on what lies inside the nodes that it lists. -/
theorem congr (same : ∀ node ∈ list, other (some node) = forest (some node)) : Visits other nodes list := by
  induction visits with
  | nil => exact .nil
  | @cons node rest below more _ _ ih ih' =>
    simp only [mem_cons, mem_append] at same
    have inside := ih fun inner member => same inner (.inr (.inl member))
    rw [← same node (.inl rfl)] at inside
    exact .cons inside (ih' fun inner member => same inner (.inr (.inr member)))

theorem sublist : nodes.Sublist list := by
  induction visits with
  | nil => exact .slnil
  | cons _ _ _ ih => exact (ih.trans (sublist_append_right _ _)).cons_cons _

/-- Each node that is listed lies at one of the places that are visited or inside a listed node. -/
theorem perm : list.Perm (nodes ++ list.flatMap fun node => forest (some node)) := by
  induction visits with
  | nil => exact .nil
  | @cons node rest below more _ _ ih ih' =>
    simp only [cons_append, flatMap_cons, flatMap_append]
    refine .cons node ?_
    calc (below ++ more).Perm ((forest (some node) ++ below.flatMap fun node => forest (some node)) ++
            (rest ++ more.flatMap fun node => forest (some node))) := ih.append ih'
      _ = (forest (some node) ++ below.flatMap fun node => forest (some node)) ++ rest ++
            more.flatMap fun node => forest (some node) := (List.append_assoc ..).symm
      _ |>.Perm (rest ++ (forest (some node) ++ below.flatMap fun node => forest (some node)) ++
            more.flatMap fun node => forest (some node)) := perm_append_comm.append_right _
      _ = _ := by simp only [List.append_assoc]

/-- The nodes inside a listed node are visited on the way, behind the node. -/
theorem exists_inside (member : node ∈ list) :
    ∃ below, Visits forest (forest (some node)) below ∧ (node :: below).Sublist list := by
  induction visits with
  | nil => cases member
  | @cons first rest below more inside _ ih ih' =>
    simp only [mem_cons, mem_append] at member
    rcases member with rfl | member | member
    · exact ⟨below, inside, (sublist_append_left _ _).cons_cons _⟩
    · obtain ⟨deeper, visits, sub⟩ := ih member
      exact ⟨deeper, visits, (sub.trans (sublist_append_left _ _)).cons _⟩
    · obtain ⟨deeper, visits, sub⟩ := ih' member
      exact ⟨deeper, visits, (sub.trans (sublist_append_right _ _)).cons _⟩

end

end Visits

def add (forest : Forest) (holder : Option Nat) (node : Nat) : Forest := fun place =>
  if place = holder then forest place ++ [node] else forest place

@[simp] theorem add_self (forest : Forest) (holder : Option Nat) (node : Nat) :
    forest.add holder node holder = forest holder ++ [node] :=
  if_pos rfl

theorem add_of_ne (forest : Forest) {holder place : Option Nat} (apart : place ≠ holder) (node : Nat) :
    forest.add holder node place = forest place :=
  if_neg apart

/-- A path from a node at the right edge outwards: each node is the last one inside the next. -/
inductive Edge (forest : Forest) : List Nat → Prop where
  | nil : Edge forest []
  | cons {node : Nat} {path before : List Nat} (last : forest path.head? = before ++ [node])
      (outer : Edge forest path) : Edge forest (node :: path)

namespace Edge

variable {path : List Nat}

theorem tail (edge : Edge forest (node :: path)) : Edge forest path := by
  cases edge with
  | cons _ outer => exact outer

theorem congr (edge : Edge forest path) (outside : other none = forest none)
    (same : ∀ node ∈ path.tail, other (some node) = forest (some node)) : Edge other path := by
  induction edge with
  | nil => exact .nil
  | @cons node path before last outer ih =>
    have kept : other path.head? = forest path.head? := by
      cases path with
      | nil => exact outside
      | cons next path => exact same next mem_cons_self
    exact .cons (kept.trans last) (ih fun inner member => same inner (mem_of_mem_tail member))

variable (ordered : ∀ holder, ∀ node ∈ forest (some holder), holder < node)

include ordered

theorem lt_of_mem (edge : Edge forest (node :: path)) : ∀ outer ∈ path, outer < node := by
  induction path generalizing node with
  | nil => exact nofun
  | cons next path ih =>
    cases edge with
    | @cons _ _ before last outer =>
      have inside : next < node := ordered next node (by rw [show forest (some next) = _ from last]; simp)
      refine forall_mem_cons.mpr ⟨inside, fun outer' member => ?_⟩
      exact Nat.lt_trans (ih outer outer' member) inside

/-- A node that is put at the end of the edge prolongs it. -/
theorem add (edge : Edge forest path) (node : Nat) : Edge (forest.add path.head? node) (node :: path) := by
  refine .cons (forest.add_self path.head? node) ?_
  cases path with
  | nil => exact .nil
  | cons place path =>
    refine edge.congr (forest.add_of_ne (Option.some_ne_none place).symm node) fun outer member => ?_
    have below : outer < place := edge.lt_of_mem ordered outer member
    exact forest.add_of_ne (fun same => Nat.ne_of_lt below (Option.some.inj same)) node

end Edge

/-! ### Visits after a node was added -/

section Add

variable {holder : Option Nat} {before : List Nat} {inner : Nat}

/-- After a node was added inside `place`, a visit of these nodes, which comes by
`place`, lists the new node at its end. -/
def Grows (forest : Forest) (place node : Nat) (nodes : List Nat) : Prop :=
  ∀ list, Visits forest nodes list → list.Nodup →
    place ∈ list ∧ Visits (forest.add (some place) node) nodes (list ++ [node])

theorem visits_add (visits : Visits forest nodes list) (away : place ∉ list) (node : Nat) :
    Visits (forest.add (some place) node) nodes list :=
  visits.congr fun _ member =>
    forest.add_of_ne (fun same => away (by rwa [← Option.some.inj same])) node

theorem visits_new (empty : forest (some node) = []) (apart : node ≠ place) :
    Visits (forest.add (some place) node) [node] [node] := by
  have inside : Visits (forest.add (some place) node) (forest.add (some place) node (some node)) [] := by
    rw [forest.add_of_ne (by simpa using apart), empty]
    exact .nil
  exact .cons inside .nil

theorem grows_place (empty : forest (some node) = []) (apart : node ≠ place) :
    Grows forest place node [place] := by
  intro list visits distinct
  obtain ⟨below, rfl, inside⟩ := visits.exists_singleton
  obtain ⟨away, _⟩ := nodup_cons.mp distinct
  refine ⟨mem_cons_self, ?_⟩
  have grown := (visits_add inside away node).append (visits_new empty apart)
  rw [← add_self forest (some place) node] at grown
  simpa using Visits.cons grown .nil

-- What is visited before the last node cannot come by `place`: the visit of the
-- last one does, and no node is listed twice.
theorem Grows.last (grows : Grows forest place node [inner]) : Grows forest place node (before ++ [inner]) := by
  intro list visits distinct
  obtain ⟨first, second, rfl, front, back⟩ := visits.exists_append
  obtain ⟨_, distinct', disjoint⟩ := nodup_append.mp distinct
  obtain ⟨member, grown⟩ := grows second back distinct'
  have away : place ∉ first := fun inside => disjoint place inside place member rfl
  refine ⟨mem_append_right _ member, ?_⟩
  rw [List.append_assoc]
  exact (visits_add front away node).append grown

theorem Grows.outer {outer : Nat} (grows : Grows forest place node (forest (some outer))) :
    Grows forest place node [outer] := by
  intro list visits distinct
  obtain ⟨below, rfl, inside⟩ := visits.exists_singleton
  obtain ⟨away, distinct⟩ := nodup_cons.mp distinct
  obtain ⟨member, grown⟩ := grows below inside distinct
  have apart : some outer ≠ some place := fun same => away (Option.some.inj same ▸ member)
  refine ⟨mem_cons_of_mem _ member, ?_⟩
  rw [← forest.add_of_ne apart node] at grown
  simpa using Visits.cons grown .nil

theorem grows_edge {path : List Nat} (edge : Edge forest (inner :: path))
    (grows : Grows forest place node [inner]) : Grows forest place node (forest none) := by
  induction path generalizing inner with
  | nil =>
    cases edge with
    | cons last _ => exact last ▸ grows.last
  | cons outer path ih =>
    cases edge with
    | cons last edge =>
      have inside : Grows forest place node (forest (some outer)) :=
        (show forest (some outer) = _ from last) ▸ grows.last
      exact ih edge inside.outer

/-- A new node at the end of the edge is visited behind all others. -/
theorem Visits.add {path : List Nat} (visits : Visits forest (forest none) list) (distinct : list.Nodup)
    (edge : Edge forest path) (empty : forest (some node) = []) (apart : node ∉ path) :
    Visits (forest.add path.head? node) (forest.add path.head? node none) (list ++ [node]) := by
  cases path with
  | nil =>
    have inside (other : Nat) : forest.add none node (some other) = forest (some other) :=
      forest.add_of_ne (Option.some_ne_none other) node
    have below : Visits (forest.add none node) (forest.add none node (some node)) [] := by
      rw [inside, empty]
      exact .nil
    have alone : Visits (forest.add none node) [node] [node] := .cons below .nil
    rw [List.head?_nil, add_self]
    exact (visits.congr fun other _ => inside other).append alone
  | cons place path =>
    have apart' : node ≠ place := fun same => apart (same ▸ mem_cons_self)
    rw [List.head?_cons, forest.add_of_ne (Option.some_ne_none place).symm]
    exact (grows_edge edge (grows_place empty apart') list visits distinct).2

end Add

end Forest

/-! ### Links of a sheet -/

def Item.rulesetId? : Item → Option Nat
  | .ruleset id => some id
  | _ => none

namespace Sheet

variable {sheet : Sheet}

/-! ### Views -/

theorem map_nested_val (sheet : Sheet) (id : sheet.Id) :
    (sheet.nested id).map (fun child => child.val.val) = (sheet.ruleset id).nested := by
  rw [Sheet.nested, map_map]
  exact attach_map_subtype_val _

theorem map_parent?_val (sheet : Sheet) (id : sheet.Id) :
    (sheet.parent? id).map (fun parent => parent.val.val) = (sheet.ruleset id).parent := by
  unfold parent?
  split <;> simp_all

theorem map_roots_val (sheet : Sheet) : sheet.roots.map Fin.val = sheet.items.filterMap Item.rulesetId? := by
  have step : sheet.roots.map Fin.val = (sheet.items.attach.map Subtype.val).filterMap Item.rulesetId? := by
    rw [roots, entries, filterMap_map, map_filterMap, filterMap_map]
    refine congrArg (fun f => List.filterMap f sheet.items.attach) (funext fun item => ?_)
    obtain ⟨item, member⟩ := item
    cases item <;> rfl
  rw [step, attach_map_subtype_val]

def forest (sheet : Sheet) : Forest
  | none => sheet.items.filterMap Item.rulesetId?
  | some id => ((sheet.rulesets[id]?).map Ruleset.nested).getD []

theorem forest_id (id : sheet.Id) : sheet.forest (some id.val) = (sheet.ruleset id).nested := by
  rw [forest, Array.getElem?_eq_getElem id.isLt]
  rfl

theorem forest_of_size_le {id : Nat} (outside : sheet.rulesets.size ≤ id) : sheet.forest (some id) = [] := by
  rw [forest, Array.getElem?_eq_none outside]
  rfl

theorem parentIn_of_mem_forest {holder : Option Nat} {id : Nat} (member : id ∈ sheet.forest holder) :
    id < sheet.rulesets.size ∧ parentIn sheet.rulesets id = holder := by
  cases holder with
  | none =>
    obtain ⟨item, inside, found⟩ := mem_filterMap.mp member
    cases item with
    | ruleset other =>
      cases found
      exact sheet.rooted id inside
    | atRule keyword params => cases found
    | call tokens => cases found
  | some parent =>
    by_cases bound : parent < sheet.rulesets.size
    · rw [sheet.forest_id ⟨parent, bound⟩] at member
      exact (sheet.linked.nested parent bound id member).2
    · rw [forest_of_size_le (by omega)] at member
      cases member

theorem lt_of_parentIn {id parent : Nat} (found : parentIn sheet.rulesets id = some parent) :
    parent < id ∧ id < sheet.rulesets.size := by
  rw [parentIn] at found
  obtain ⟨ruleset, here, named⟩ := Option.bind_eq_some_iff.mp found
  obtain ⟨bound, rfl⟩ := Array.getElem?_eq_some_iff.mp here
  exact ⟨sheet.linked.parent id bound parent named, bound⟩

theorem lt_of_mem_forest (holder id : Nat) (member : id ∈ sheet.forest (some holder)) : holder < id :=
  (lt_of_parentIn (parentIn_of_mem_forest member).2).1

/-! ### Changes -/

theorem forest_addItem (sheet : Sheet) (item : Item) (other : ∀ id, item ≠ .ruleset id) :
    (sheet.addItem item other).forest = sheet.forest := by
  funext holder
  cases holder with
  | none =>
    have none_ : item.rulesetId? = none := by
      cases item with
      | ruleset id => exact absurd rfl (other id)
      | atRule keyword params => rfl
      | call tokens => rfl
    simp [forest, addItem, none_]
  | some id => rfl

theorem forest_modify (sheet : Sheet) (id : Nat) (change : Ruleset → Ruleset)
    (keeps : ∀ r, (change r).nested = r.nested ∧ (change r).parent = r.parent) :
    (sheet.modify id change keeps).forest = sheet.forest := by
  funext holder
  cases holder with
  | none => rfl
  | some holder =>
    have nested : Ruleset.nested ∘ change = Ruleset.nested := funext fun ruleset => (keeps ruleset).1
    rw [forest, forest, modify]
    dsimp only
    rw [Array.getElem?_modify]
    split
    · rw [Option.map_map, nested]
    · rfl

theorem nested_push (rulesets : Array Ruleset) {ruleset : Ruleset} (leaf : ruleset.nested = []) (id : Nat) :
    (((rulesets.push ruleset)[id]?).map Ruleset.nested).getD [] = ((rulesets[id]?).map Ruleset.nested).getD [] := by
  rw [Array.getElem?_push]
  split
  · rename_i last
    rw [last, Array.getElem?_eq_none (Nat.le_refl _)]
    exact leaf
  · rfl

theorem forest_addRoot (sheet : Sheet) (selector : Selector) (kind : RulesetKind) :
    (sheet.addRoot selector kind).forest = sheet.forest.add none sheet.rulesets.size := by
  funext holder
  cases holder with
  | none =>
    rw [Forest.add_self]
    simp [forest, addRoot, Item.rulesetId?]
  | some id =>
    rw [Forest.add_of_ne _ (Option.some_ne_none id)]
    exact nested_push _ rfl id

theorem forest_addNested (sheet : Sheet) (parent : sheet.Id) (selector : Selector) (kind : RulesetKind) :
    (sheet.addNested parent selector kind).forest = sheet.forest.add (some parent.val) sheet.rulesets.size := by
  funext holder
  cases holder with
  | none => rw [Forest.add_of_ne _ (Option.some_ne_none _).symm]; rfl
  | some id =>
    rw [forest, addNested]
    dsimp only
    rw [Array.getElem?_modify]
    by_cases same : parent.val = id
    · subst same
      rw [if_pos rfl, Array.getElem?_push_lt parent.isLt, Forest.add_self, forest_id]
      rfl
    · rw [if_neg same, nested_push _ rfl, Forest.add_of_ne _ (by simpa using Ne.symm same)]
      rfl

end Sheet

end LessCss
