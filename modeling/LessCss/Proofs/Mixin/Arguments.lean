import Mathlib.Data.List.Nodup
import LessCss.Mixin
import LessCss.Token.Scan

/-! What the parameters of a definition get from a call. Main statement: the arguments
fit if there are not too many of them and each parameter that gets none has a
fallback; then each parameter that is not named takes the next argument, and what is
left over goes to the rest parameter. -/

set_option autoImplicit false

namespace LessCss

open List Variables Tokens

/-! ### Look-up in maps -/

namespace Variables

theorem lookup_entry (name key : String) (value : Tokens) (rest : List (String × Tokens)) :
    ((key, value) :: rest).lookup name = if name = key then some value else rest.lookup name := by
  rw [lookup_cons]
  by_cases same : name = key
  · simp [same]
  · rw [if_neg same, beq_false_of_ne same]

theorem get?_insert (vars : Variables) (key name : String) (value : Tokens) :
    (vars.insert key value).get? name = if name = key then some value else vars.get? name := by
  obtain ⟨entries⟩ := vars
  unfold insert get?
  dsimp only
  induction entries with
  | nil => exact lookup_entry name key value []
  | cons entry rest ih =>
    obtain ⟨first, stored⟩ := entry
    rw [insertEntry]
    split
    · rename_i found
      dsimp only at found
      subst found
      rw [lookup_entry, lookup_entry]
      split <;> rfl
    · rename_i other
      dsimp only at other
      rw [lookup_entry, lookup_entry, ih]
      by_cases same : name = first
      · subst same
        simp [other]
      · rw [if_neg same, if_neg same]

theorem get?_ofEntries (entries : List (String × Tokens)) (name : String) :
    (ofEntries entries).get? name = entries.reverse.lookup name := by
  have merged (vars : Variables) : (merge vars ⟨entries⟩).get? name =
      (entries.reverse.lookup name).or (vars.get? name) := by
    unfold merge
    dsimp only
    induction entries generalizing vars with
    | nil => rfl
    | cons entry rest ih =>
      obtain ⟨key, value⟩ := entry
      rw [foldl_cons, ih, get?_insert, reverse_cons, lookup_append, Option.or_assoc, lookup_entry]
      split <;> rfl
  rw [ofEntries, merged]
  exact Option.or_none

theorem lookup_of_mem {entries : List (String × Tokens)} (distinct : (entries.map Prod.fst).Nodup)
    {name : String} {value : Tokens} (member : (name, value) ∈ entries) : entries.lookup name = some value := by
  induction entries with
  | nil => cases member
  | cons entry rest ih =>
    obtain ⟨key, stored⟩ := entry
    obtain ⟨apart, distinct⟩ := nodup_cons.mp distinct
    rw [lookup_entry]
    rcases mem_cons.mp member with same | member
    · cases same
      exact if_pos rfl
    · have other : name ≠ key := fun same => apart (mem_map.mpr ⟨_, member, same⟩)
      rw [if_neg other, ih distinct member]

theorem lookup_eq_none_iff {entries : List (String × Tokens)} {name : String} :
    entries.lookup name = none ↔ name ∉ entries.map Prod.fst := by
  rw [List.lookup_eq_none_iff, mem_map, not_exists]
  refine forall_congr' fun entry => ?_
  rw [bne_iff_ne, not_and, ne_comm]

end Variables

/-! ### Parameters and their values -/

namespace MixinCall

/-- What the parameters get, one after the other: a named value, else the next argument,
else the fallback. -/
inductive Assigns (named : Variables) :
    List Parameter → List Tokens → List (String × Tokens) → List Tokens → Prop where
  | nil {arguments : List Tokens} : Assigns named [] arguments [] arguments
  | named {parameter : Parameter} {parameters : List Parameter} {value : Tokens} {arguments left : List Tokens}
      {assigned : List (String × Tokens)} (found : named.get? parameter.name = some value)
      (others : Assigns named parameters arguments assigned left) :
      Assigns named (parameter :: parameters) arguments ((parameter.name, value) :: assigned) left
  | next {parameter : Parameter} {parameters : List Parameter} {value : Tokens} {arguments left : List Tokens}
      {assigned : List (String × Tokens)} (unnamed : named.get? parameter.name = none)
      (others : Assigns named parameters arguments assigned left) :
      Assigns named (parameter :: parameters) (value :: arguments) ((parameter.name, value) :: assigned) left
  | fallback {parameter : Parameter} {parameters : List Parameter} {value : Tokens} {left : List Tokens}
      {assigned : List (String × Tokens)} (unnamed : named.get? parameter.name = none)
      (given : parameter.fallback = some value) (others : Assigns named parameters [] assigned left) :
      Assigns named (parameter :: parameters) [] ((parameter.name, value) :: assigned) left

variable {named : Variables} {parameters : List Parameter} {arguments left : List Tokens}
  {assigned : List (String × Tokens)}

theorem assign?_eq_some_iff :
    assign? named parameters arguments = some (assigned, left) ↔ Assigns named parameters arguments assigned left := by
  constructor
  · intro found
    induction parameters generalizing arguments assigned with
    | nil =>
      cases found
      exact .nil
    | cons parameter parameters ih =>
      -- Once a value is taken, the other parameters go on with the arguments that are left.
      have others {value : Tokens} {arguments : List Tokens}
          (found : (assign? named parameters arguments >>= fun found =>
            some ((parameter.name, value) :: found.1, found.2)) = some (assigned, left)) :
          ∃ rest, assigned = (parameter.name, value) :: rest ∧ Assigns named parameters arguments rest left := by
        obtain ⟨_, read, same⟩ := Option.bind_eq_some_iff.mp found
        cases same
        exact ⟨_, rfl, ih read⟩
      unfold assign? at found
      cases stored : named.get? parameter.name with
      | some value =>
        rw [stored] at found
        obtain ⟨rest, rfl, assigns⟩ := others found
        exact .named stored assigns
      | none =>
        rw [stored] at found
        cases arguments with
        | cons value arguments =>
          obtain ⟨rest, rfl, assigns⟩ := others found
          exact .next stored assigns
        | nil =>
          obtain ⟨_, taken, found⟩ := Option.bind_eq_some_iff.mp found
          obtain ⟨value, given, rfl⟩ := Option.map_eq_some_iff.mp taken
          obtain ⟨rest, rfl, assigns⟩ := others found
          exact .fallback stored given assigns
  · intro assigns
    induction assigns with
    | nil => rfl
    | named found _ ih => simp [assign?, found, ih]
    | next unnamed _ ih => simp [assign?, unnamed, ih]
    | fallback unnamed given _ ih => simp [assign?, unnamed, given, ih]

def positional (named : Variables) (parameters : List Parameter) : List Parameter :=
  parameters.filter fun parameter => (named.get? parameter.name).isNone

theorem positional_cons_named {parameter : Parameter} {value : Tokens}
    (found : named.get? parameter.name = some value) (parameters : List Parameter) :
    positional named (parameter :: parameters) = positional named parameters :=
  filter_cons_of_neg (by simp [found])

theorem positional_cons {parameter : Parameter} (unnamed : named.get? parameter.name = none)
    (parameters : List Parameter) :
    positional named (parameter :: parameters) = parameter :: positional named parameters :=
  filter_cons_of_pos (by simp [unnamed])

namespace Assigns

section

variable (assigns : Assigns named parameters arguments assigned left)

include assigns

theorem names : assigned.map Prod.fst = parameters.map Parameter.name := by
  induction assigns with
  | nil => rfl
  | named _ _ ih | next _ _ ih | fallback _ _ _ ih => exact congrArg (_ :: ·) ih

theorem left_eq : left = arguments.drop (positional named parameters).length := by
  induction assigns with
  | nil => rfl
  | named found _ ih => rwa [positional_cons_named found]
  | next unnamed _ ih => rwa [positional_cons unnamed]
  | fallback unnamed _ _ ih => simpa [positional_cons unnamed] using ih

theorem mem_of_named {parameter : Parameter}
    (member : parameter ∈ parameters) {value : Tokens} (found : named.get? parameter.name = some value) :
    (parameter.name, value) ∈ assigned := by
  induction assigns with
  | nil => cases member
  | named found' _ ih =>
    rcases mem_cons.mp member with rfl | member
    · cases found.symm.trans found'
      exact mem_cons_self
    · exact mem_cons_of_mem _ (ih member)
  | next unnamed _ ih | fallback unnamed _ _ ih =>
    rcases mem_cons.mp member with rfl | member
    · cases found.symm.trans unnamed
    · exact mem_cons_of_mem _ (ih member)

/-- Arguments and parameters without a name go together in order. -/
theorem mem_of_positional {i : Nat}
    {parameter : Parameter} (found : (positional named parameters)[i]? = some parameter) :
    ∃ value, (parameter.name, value) ∈ assigned ∧ arguments[i]?.or parameter.fallback = some value := by
  -- A parameter with a name takes no position; each of the others moves the index by one.
  induction assigns generalizing i with
  | nil => cases found
  | named found' _ ih =>
    rw [positional_cons_named found'] at found
    obtain ⟨value, member, same⟩ := ih found
    exact ⟨value, mem_cons_of_mem _ member, same⟩
  | next unnamed _ ih =>
    rw [positional_cons unnamed] at found
    cases i with
    | zero =>
      cases found
      exact ⟨_, mem_cons_self, rfl⟩
    | succ i =>
      obtain ⟨value, member, same⟩ := ih found
      exact ⟨value, mem_cons_of_mem _ member, same⟩
  | fallback unnamed given _ ih =>
    rw [positional_cons unnamed] at found
    cases i with
    | zero =>
      cases found
      exact ⟨_, mem_cons_self, given⟩
    | succ i =>
      obtain ⟨value, member, same⟩ := ih found
      exact ⟨value, mem_cons_of_mem _ member, same⟩

end

end Assigns

/-- Only a parameter behind the last argument that has no fallback is left without a value. -/
theorem exists_assigns_iff : (∃ assigned left, Assigns named parameters arguments assigned left) ↔
    ∀ parameter ∈ (positional named parameters).drop arguments.length, parameter.fallback.isSome = true := by
  constructor
  · rintro ⟨assigned, left, assigns⟩ parameter member
    obtain ⟨i, behind⟩ := mem_iff_getElem?.mp member
    rw [List.getElem?_drop] at behind
    obtain ⟨value, _, same⟩ := assigns.mem_of_positional behind
    rw [List.getElem?_eq_none (Nat.le_add_right _ _), Option.none_or] at same
    rw [same]
    rfl
  · intro given
    induction parameters generalizing arguments with
    | nil => exact ⟨[], arguments, .nil⟩
    | cons parameter parameters ih =>
      cases stored : named.get? parameter.name with
      | some value =>
        rw [positional_cons_named stored] at given
        obtain ⟨assigned, left, assigns⟩ := ih given
        exact ⟨_, left, .named stored assigns⟩
      | none =>
        rw [positional_cons stored] at given
        cases arguments with
        | cons value arguments =>
          obtain ⟨assigned, left, assigns⟩ := ih given
          exact ⟨_, left, .next stored assigns⟩
        | nil =>
          -- No argument is left, so this parameter and all behind it have to have a fallback.
          obtain ⟨first, others⟩ := forall_mem_cons.mp given
          obtain ⟨value, given⟩ := Option.isSome_iff_exists.mp first
          obtain ⟨assigned, left, assigns⟩ := @ih [] others
          exact ⟨_, left, .fallback stored given assigns⟩

end MixinCall

/-! ### Definitions -/

def RestParameter.names : RestParameter → List String
  | .named name => [name]
  | .absent => []
  | .anonymous => []

def RestParameter.entries (left : List Tokens) (rest : RestParameter) : List (String × Tokens) :=
  rest.names.map fun name => (name, joinSpaced left)

/-- No two parameters share a name, and none has the name of the rest parameter or of all arguments. -/
structure ParameterList.Distinct (list : ParameterList) : Prop where
  apart : (list.parameters.map Parameter.name).Nodup
  all : MixinCall.allArguments ∉ list.parameters.map Parameter.name
  rest : ∀ name ∈ list.rest.names, name ∉ list.parameters.map Parameter.name

theorem ParameterList.distinct_of_eq {list : ParameterList} {names : List String} {rest : RestParameter}
    (named : list.parameters.map Parameter.name = names) (last : list.rest = rest) (apart : names.Nodup)
    (all : MixinCall.allArguments ∉ names) (other : ∀ name ∈ rest.names, name ∉ names) : list.Distinct := by
  subst named last
  exact ⟨apart, all, other⟩

namespace MixinCall

def surplus (call : MixinCall) (list : ParameterList) : List Tokens :=
  call.arguments.drop (positional call.named list.parameters).length

/-- What the names of a definition stand for in a call. -/
structure Receives (call : MixinCall) (list : ParameterList) (bound : Variables) : Prop where
  named : ∀ parameter ∈ list.parameters, ∀ value, call.named.get? parameter.name = some value →
    bound.get? parameter.name = some value
  positional : ∀ (i : Nat) (parameter : Parameter),
    (MixinCall.positional call.named list.parameters)[i]? = some parameter →
    bound.get? parameter.name = call.arguments[i]?.or parameter.fallback
  /-- A rest parameter with the name of all arguments is hidden by them. -/
  rest : ∀ name ∈ list.rest.names, name ≠ allArguments →
    bound.get? name = some (joinSpaced (call.surplus list))
  all : ∃ values, values.map some = list.parameters.map (fun parameter => bound.get? parameter.name) ∧
    bound.get? allArguments = some (joinSpaced (values ++ call.surplus list))

variable {call : MixinCall} {selector : Selector} {list : ParameterList} {bound : Variables}
  {assigned : List (String × Tokens)} {left : List Tokens}

def entries (rest : RestParameter) (assigned : List (String × Tokens)) (left : List Tokens) : List (String × Tokens) :=
  assigned ++ rest.entries left ++ [(allArguments, joinSpaced (assigned.map Prod.snd ++ left))]

theorem bind?_of_assigns (listed : selector.parameters = some list)
    (assigns : Assigns call.named list.parameters call.arguments assigned left) : call.bind? selector =
      if left = [] ∨ list.unlimited = true then some (.ofEntries (entries list.rest assigned left)) else none := by
  obtain ⟨parameters, rest⟩ := list
  have found := assign?_eq_some_iff.mpr assigns
  dsimp only at found
  unfold bind?
  rw [listed]
  dsimp only
  rw [found]
  cases rest <;> cases left <;> simp [ParameterList.unlimited, entries, RestParameter.entries, RestParameter.names]

theorem bind?_eq_some_iff (listed : selector.parameters = some list) : call.bind? selector = some bound ↔
    ∃ assigned left, Assigns call.named list.parameters call.arguments assigned left ∧
      (left = [] ∨ list.unlimited = true) ∧ bound = .ofEntries (entries list.rest assigned left) := by
  constructor
  · intro bound
    cases found : assign? call.named list.parameters call.arguments with
    | none =>
      unfold bind? at bound
      rw [listed] at bound
      dsimp only at bound
      rw [found] at bound
      cases bound
    | some result =>
      have assigns := assign?_eq_some_iff.mp (show _ = some (result.1, result.2) from found)
      rw [bind?_of_assigns listed assigns] at bound
      obtain ⟨fits, same⟩ := (Option.ite_none_right_eq_some).mp bound
      exact ⟨_, _, assigns, fits, (Option.some.inj same).symm⟩
  · rintro ⟨assigned, left, assigns, fits, rfl⟩
    rw [bind?_of_assigns listed assigns, if_pos fits]

/-- The arguments fit if each parameter gets a value and none is too many. -/
theorem isSome_bind?_iff (listed : selector.parameters = some list) : (call.bind? selector).isSome = true ↔
    (call.arguments.length ≤ (positional call.named list.parameters).length ∨ list.unlimited = true) ∧
      ∀ parameter ∈ (positional call.named list.parameters).drop call.arguments.length,
        parameter.fallback.isSome = true := by
  rw [← exists_assigns_iff, Option.isSome_iff_exists]
  simp only [bind?_eq_some_iff listed]
  constructor
  · rintro ⟨_, assigned, left, assigns, fits, _⟩
    rw [assigns.left_eq, drop_eq_nil_iff] at fits
    exact ⟨fits, assigned, left, assigns⟩
  · rintro ⟨fits, assigned, left, assigns⟩
    rw [← drop_eq_nil_iff, ← assigns.left_eq] at fits
    exact ⟨_, assigned, left, assigns, fits, rfl⟩

/-- A name of a parameter is bound to what the parameter was assigned. -/
theorem get?_entries_of_mem (distinct : list.Distinct)
    (names : assigned.map Prod.fst = list.parameters.map Parameter.name) {name : String} {value : Tokens}
    (member : (name, value) ∈ assigned) :
    (ofEntries (entries list.rest assigned left)).get? name = some value := by
  have inside : name ∈ list.parameters.map Parameter.name := by
    rw [← names]
    exact mem_map_of_mem member
  have all : name ≠ allArguments := fun same => distinct.all (same ▸ inside)
  have rest : name ∉ (list.rest.entries left).reverse.map Prod.fst := by
    intro found
    refine distinct.rest name ?_ inside
    simpa [RestParameter.entries] using found
  have apart : (assigned.reverse.map Prod.fst).Nodup := by
    rw [map_reverse, nodup_reverse, names]
    exact distinct.apart
  rw [get?_ofEntries, entries, reverse_append, reverse_append, reverse_singleton,
    singleton_append, lookup_entry, if_neg all, lookup_append, lookup_eq_none_iff.mpr rest, Option.none_or]
  exact lookup_of_mem apart (mem_reverse.mpr member)

theorem receives_of_bind? (listed : selector.parameters = some list) (fits : call.bind? selector = some bound)
    (distinct : list.Distinct) : call.Receives list bound := by
  obtain ⟨assigned, left, assigns, _, rfl⟩ := (bind?_eq_some_iff listed).mp fits
  -- The names are distinct, so what is looked up under a name is what was assigned to it.
  have value {name : String} {value : Tokens} (member : (name, value) ∈ assigned) :
      (ofEntries (entries list.rest assigned left)).get? name = some value :=
    get?_entries_of_mem distinct assigns.names member
  have surplus : call.surplus list = left := assigns.left_eq.symm
  refine ⟨fun parameter member _ found => value (assigns.mem_of_named member found), ?_, ?_, ?_⟩
  · intro i parameter found
    obtain ⟨_, member, same⟩ := assigns.mem_of_positional found
    rw [value member, same]
  · intro name named other
    rw [get?_ofEntries, entries, surplus]
    cases rest : list.rest with
    | named name' =>
      rw [rest] at named
      cases mem_singleton.mp named
      simp [RestParameter.entries, RestParameter.names, lookup_entry, other]
    | absent | anonymous =>
      rw [rest] at named
      cases named
  · refine ⟨assigned.map Prod.snd, ?_, ?_⟩
    · have same := congrArg (List.map (ofEntries (entries list.rest assigned left)).get?) assigns.names
      rw [map_map, map_map] at same
      rw [← Function.comp_def, ← same, map_map]
      exact map_congr_left fun entry member => (value member).symm
    · rw [get?_ofEntries, entries, surplus]
      simp

/-- A definition without a parameter list takes calls without arguments. With one, the
arguments fit if there are no more of them than parameters without a named value, or
any number is taken, and if each such parameter behind the last argument has a fallback.
Then the parameters get their values in order, and what is left over goes on. -/
theorem arguments_bound_in_order (call : MixinCall) (selector : Selector) :
    (selector.parameters = none →
      ((call.bind? selector).isSome = true ↔ call.arguments = [] ∧ call.named = .empty) ∧
      ∀ bound, call.bind? selector = some bound → bound = .empty) ∧
    ∀ list, selector.parameters = some list →
      ((call.bind? selector).isSome = true ↔
        (call.arguments.length ≤ (positional call.named list.parameters).length ∨ list.unlimited = true) ∧
          ∀ parameter ∈ (positional call.named list.parameters).drop call.arguments.length,
            parameter.fallback.isSome = true) ∧
      ∀ bound, call.bind? selector = some bound → list.Distinct → call.Receives list bound := by
  constructor
  · intro none_
    obtain ⟨name, path, arguments, ⟨named⟩, important⟩ := call
    unfold bind?
    rw [none_]
    cases arguments <;> cases named <;> simp [hasArguments, empty]
  · exact fun list listed => ⟨isSome_bind?_iff listed, fun bound fits distinct => receives_of_bind? listed fits distinct⟩

def written (call definition : String) : Option (MixinCall × Selector) :=
  (MixinCall.read? (Scan.ofText "in" call).tokens).map fun call =>
    (call, Selector.read (Scan.ofText "in" definition).tokens)

/-- A named argument for the first parameter, a fallback that is not used and one that is. -/
theorem mixedArguments_bound : ∃ call selector list bound,
    written ".m(1; @a: 5; 2, 3)" ".m(@a; @b; @c: 3; @d: 4; @rest...)" = some (call, selector) ∧
    selector.parameters = some list ∧ call.bind? selector = some bound ∧ list.Distinct ∧
    ["@a", "@b", "@c", "@d", "@rest", "@arguments"].map (fun name => (bound.get? name).map text) =
      [some "5", some "1", some "2, 3", some "4", some "", some "5 1 2, 3 4"] ∧
    call.Receives list bound := by
  have checked : ((written ".m(1; @a: 5; 2, 3)" ".m(@a; @b; @c: 3; @d: 4; @rest...)").any fun pair =>
      pair.2.parameters.any fun list => (pair.1.bind? pair.2).any fun bound =>
        list.parameters.map Parameter.name == ["@a", "@b", "@c", "@d"] && list.rest == .named "@rest" &&
        ["@a", "@b", "@c", "@d", "@rest", "@arguments"].map (fun name => (bound.get? name).map text) ==
          [some "5", some "1", some "2, 3", some "4", some "", some "5 1 2, 3 4"]) = true := by
    decide +kernel
  obtain ⟨⟨call, selector⟩, wrote, checked⟩ := (Option.any_eq_true _ _).mp checked
  obtain ⟨list, listed, checked⟩ := (Option.any_eq_true _ _).mp checked
  obtain ⟨bound, fits, checked⟩ := (Option.any_eq_true _ _).mp checked
  simp only [Bool.and_eq_true, beq_iff_eq] at checked
  obtain ⟨⟨names, rest⟩, values⟩ := checked
  have distinct := ParameterList.distinct_of_eq names rest (by decide) (by decide) (by decide)
  exact ⟨call, selector, list, bound, wrote, listed, fits, distinct, values,
    ((arguments_bound_in_order call selector).2 list listed).2 bound fits distinct⟩

/-- A rest parameter with the name of all arguments does not get what is left over. -/
theorem restOfAllArguments_hidden : ∃ call selector list bound,
    written ".m(1; 2)" ".m(@a; @arguments...)" = some (call, selector) ∧
    selector.parameters = some list ∧ call.bind? selector = some bound ∧ list.Distinct ∧
    list.rest = .named allArguments ∧ (call.surplus list).map text = ["2"] ∧
    (bound.get? allArguments).map text = some "1 2" ∧
    bound.get? allArguments ≠ some (joinSpaced (call.surplus list)) := by
  have checked : ((written ".m(1; 2)" ".m(@a; @arguments...)").any fun pair =>
      pair.2.parameters.any fun list => (pair.1.bind? pair.2).any fun bound =>
        list.parameters.map Parameter.name == ["@a"] && list.rest == .named allArguments &&
        (pair.1.surplus list).map text == ["2"] && (bound.get? allArguments).map text == some "1 2" &&
        bound.get? allArguments != some (joinSpaced (pair.1.surplus list))) = true := by
    decide +kernel
  obtain ⟨⟨call, selector⟩, wrote, checked⟩ := (Option.any_eq_true _ _).mp checked
  obtain ⟨list, listed, checked⟩ := (Option.any_eq_true _ _).mp checked
  obtain ⟨bound, fits, checked⟩ := (Option.any_eq_true _ _).mp checked
  simp only [Bool.and_eq_true, beq_iff_eq, bne_iff_ne] at checked
  obtain ⟨⟨⟨⟨names, rest⟩, left⟩, all⟩, other⟩ := checked
  have distinct := ParameterList.distinct_of_eq names rest (by decide) (by decide) (by decide)
  exact ⟨call, selector, list, bound, wrote, listed, fits, distinct, rest, left, all, other⟩

end MixinCall

end LessCss
