import LessCss.Compile
import LessCss.Proofs.Evaluation.LexicalScope
import LessCss.Proofs.Evaluator.Bindings
import LessCss.Proofs.Mixin.Arguments

/-! What a variable means in a nested ruleset. Main statement: when the frame of a
nested ruleset is pushed on the frame of the ruleset around it, each variable that
the nested ruleset does not define keeps its value, unless the rulesets further out
have another one for it. The nested ruleset comes to them before it comes to what calls
have left behind in the frame below, and it sees them without the closure of that frame. -/

set_option autoImplicit false

namespace LessCss

open List Stack Context

/-! ### Names of arguments -/

namespace Variables

theorem isSome_get?_ofEntries (entries : List (String × Tokens)) (name : String) :
    ((ofEntries entries).get? name).isSome = (entries.map Prod.fst).contains name := by
  rw [get?_ofEntries, Bool.eq_iff_iff, Option.isSome_iff_ne_none, Ne, lookup_eq_none_iff, not_not, map_reverse,
    mem_reverse, contains_iff_mem]

end Variables

def Selector.boundNames (selector : Selector) : List String :=
  match selector.parameters with
  | none => []
  | some list => list.parameters.map Parameter.name ++ list.rest.names ++ [MixinCall.allArguments]

namespace MixinCall

/-- Whatever the call, a definition gives values to the same names. -/
theorem isSome_get?_of_bind? {call : MixinCall} {selector : Selector} {arguments : Variables}
    (bound : call.bind? selector = some arguments) (name : String) :
    (arguments.get? name).isSome = selector.boundNames.contains name := by
  unfold Selector.boundNames
  cases listed : selector.parameters with
  | none =>
    unfold bind? at bound
    rw [listed] at bound
    dsimp only at bound
    split at bound
    · cases bound
    · cases bound
      rfl
  | some list =>
    obtain ⟨assigned, left, assigns, _, rfl⟩ := (bind?_eq_some_iff listed).mp bound
    rw [Variables.isSome_get?_ofEntries, entries, map_append, map_append, assigns.names,
      RestParameter.entries, map_map]
    simp [Function.comp_def]

end MixinCall

variable {sheet : Sheet}

namespace Sheet

theorem Binds.isSome_eq {id : sheet.Id} {arguments arguments' : Variables} (bound : Binds id arguments)
    (bound' : Binds id arguments') (name : String) :
    (arguments.get? name).isSome = (arguments'.get? name).isSome := by
  obtain ⟨_, bound⟩ := bound
  obtain ⟨_, bound'⟩ := bound'
  rw [MixinCall.isSome_get?_of_bind? bound, MixinCall.isSome_get?_of_bind? bound']

theorem Binds.get?_of_plain {id : sheet.Id} {arguments : Variables} (bound : Binds id arguments)
    (plain : (sheet.ruleset id).isMixin = false) (name : String) : arguments.get? name = none := by
  obtain ⟨_, bound⟩ := bound
  have none_ : (sheet.ruleset id).selector.parameters = none := by
    simpa [Ruleset.isMixin, Selector.isMixin] using plain
  have unbound := MixinCall.isSome_get?_of_bind? bound name
  rw [Selector.boundNames, none_] at unbound
  simpa using unbound

theorem lt_of_mem_ancestors {id ancestor : sheet.Id} (member : ancestor ∈ sheet.ancestors id) :
    ancestor < id := by
  fun_induction Sheet.ancestors sheet id with
  | case1 id none_ => cases member
  | case2 id parent before found ih =>
    rcases mem_cons.mp member with rfl | further
    · exact before
    · exact Fin.lt_trans (ih further) before

end Sheet

theorem Scope.find?_flatMap_congr {ι : Type} {list : List ι} {first second : ι → Scope} {name : String}
    (each : ∀ item ∈ list, (first item).find? name = (second item).find? name) :
    Scope.find? (list.flatMap first) name = Scope.find? (list.flatMap second) name := by
  induction list with
  | nil => rfl
  | cons item rest ih =>
    obtain ⟨one, others⟩ := forall_mem_cons.mp each
    rw [flatMap_cons, flatMap_cons, Scope.find?_append, Scope.find?_append, one, ih others]

/-! ### Two frames, one on the other -/

namespace Stack

/-- What the rulesets around a ruleset contribute to the scope of its frame. -/
def aroundScope (frame : Frame sheet) (outer : Stack sheet) (id : sheet.Id) : Scope :=
  (sheet.ancestors id).flatMap (ancestorScope frame outer)

def NotCaptured (stack : Stack sheet) (name : String) : Prop :=
  ∀ frame ∈ stack, ∀ captured ∈ frame.captured, captured.arguments.get? name = none

/-- What the frame of a ruleset sees beyond the variables and the arguments of that ruleset. -/
def beyondScope (frame : Frame sheet) (outer : Stack sheet) (id : sheet.Id) : Scope :=
  frame.returned :: (aroundScope frame outer id ++ outer.scope)

/-- Where a ruleset nested in this one looks before it comes to what the frame sees. All that came with the
closure of a mixin is there, and otherwise the rulesets further out have the arguments of running calls. -/
def outwardScope (frame : Frame sheet) (outer : Stack sheet) (id : sheet.Id) : Scope :=
  (if (sheet.ruleset id).isMixin then frame.captured.map Captured.arguments else []) ++ aroundScope .root outer id

theorem find?_scope {frame : Frame sheet} {id : sheet.Id} (here : frame.ruleset = some id)
    (outer : Stack sheet) (name : String) :
    (scope (frame :: outer)).find? name =
      ((sheet.ruleset id).vars.get? name).or ((frame.arguments.get? name).or
        ((beyondScope frame outer id).find? name)) := by
  rw [scope, Scope.find?_append, frameScope, here]
  dsimp only
  rw [Scope.find?_cons, Scope.find?_cons, Scope.find?_cons, ← aroundScope, beyondScope, Scope.find?_cons,
    Scope.find?_append, Option.or_assoc, Option.or_assoc, Option.or_assoc]

theorem outerArguments_call {id ancestor : sheet.Id} {stack : Stack sheet} {call : Frame sheet}
    (found : stack.callOf? ancestor = some call) :
    outerArguments (.ofRuleset id) stack ancestor =
      call.arguments :: call.captured.map Captured.arguments := by
  simp only [outerArguments, Frame.ofRuleset, List.find?_nil, found]

theorem find?_captured {captured : List (Captured sheet)} {name : String}
    (none_ : ∀ scope ∈ captured, scope.arguments.get? name = none) :
    Scope.find? (captured.map Captured.arguments) name = none := by
  rw [Scope.find?, List.findSome?_eq_none_iff]
  intro vars member
  obtain ⟨scope, inside, rfl⟩ := mem_map.mp member
  exact none_ scope inside

variable {frame : Frame sheet} {outer : Stack sheet} {parent : sheet.Id} {name : String}

/-- The frame below is the call that a nested ruleset finds for the ruleset around it, if that is a mixin. -/
theorem find?_parentArguments (lawful : frame.Lawful) (here : frame.ruleset = some parent) (child : sheet.Id) :
    Scope.find? (if (sheet.ruleset parent).isMixin then
        outerArguments (.ofRuleset child) (frame :: outer) parent else []) name =
      (frame.arguments.get? name).or (Scope.find?
        (if (sheet.ruleset parent).isMixin then frame.captured.map Captured.arguments else []) name) := by
  have holds := lawful.holds parent here
  rw [Frame.Holds] at holds
  split at holds
  · rename_i isCall
    have callee : frame.callee? = some parent := by rw [Frame.callee?, if_pos isCall, here]
    have found : callOf? (frame :: outer) parent = some frame := by
      rw [callOf?, List.find?_cons, callee]
      simp
    by_cases mixin : (sheet.ruleset parent).isMixin
    · rw [if_pos mixin, if_pos mixin, outerArguments_call found, Scope.find?_cons]
    · rw [if_neg mixin, if_neg mixin, holds.get?_of_plain (by simpa using mixin)]
      rfl
  · obtain ⟨plain, empty⟩ := holds
    rw [plain, empty]
    rfl

theorem callOf?_cons_of_lt (here : frame.ruleset = some parent) {ancestor : sheet.Id}
    (further : ancestor < parent) : callOf? (frame :: outer) ancestor = outer.callOf? ancestor := by
  have other : (frame.callee? == some ancestor) = false := by
    rw [Frame.callee?, here]
    split
    · simpa using (Fin.ne_of_lt further).symm
    · rfl
  rw [callOf?, List.find?_cons, other]
  rfl

theorem aroundScope_nested (here : frame.ruleset = some parent) (child : sheet.Id) :
    aroundScope (.ofRuleset child) (frame :: outer) parent = aroundScope .root outer parent := by
  refine flatMap_congr fun ancestor member => ?_
  rw [ancestorScope, ancestorScope, outerArguments, outerArguments,
    callOf?_cons_of_lt here (Sheet.lt_of_mem_ancestors member)]
  rfl

/-- A nested ruleset looks at the ruleset around it and its arguments, then outwards, and only then at all
that the frame below sees. -/
theorem find?_nested (lawful : frame.Lawful) (here : frame.ruleset = some parent) (outer : Stack sheet)
    {child : { c : sheet.Id // parent < c }} (inside : child ∈ sheet.nested parent)
    (undefined : (sheet.ruleset child.val).vars.get? name = none) :
    (scope (.ofRuleset child.val :: frame :: outer)).find? name =
      ((sheet.ruleset parent).vars.get? name).or ((frame.arguments.get? name).or
        (((outwardScope frame outer parent).find? name).or ((scope (frame :: outer)).find? name))) := by
  have empty : Variables.empty.get? name = none := rfl
  rw [find?_scope rfl, beyondScope, Scope.find?_cons, Scope.find?_append, undefined, aroundScope,
    Sheet.ancestors_nested inside, flatMap_cons, ← aroundScope, ancestorScope, aroundScope_nested here,
    Scope.find?_append, Scope.find?_cons, find?_parentArguments lawful here, outwardScope, Scope.find?_append,
    Frame.ofRuleset, empty, Option.none_or, Option.none_or, Option.none_or, Option.or_assoc, Option.or_assoc,
    Option.or_assoc, Option.or_assoc]

/-! ### Other values further out -/

/-- The ruleset of a frame does not define the variable and has no such argument, and outwards there is a value for
it that the frame itself does not see: it has one that a finished call has left behind, or it sees the rulesets
further out as a closure does. -/
structure Overtakes (frame : Frame sheet) (outer : Stack sheet) (id : sheet.Id) (name : String)
    (value : Tokens) : Prop where
  undefined : (sheet.ruleset id).vars.get? name = none
  unbound : frame.arguments.get? name = none
  outward : (outwardScope frame outer id).find? name = some value
  beyond : (beyondScope frame outer id).find? name ≠ some value

/-- Of the rulesets around a mixin, from the inside out, the first that has a value for the name is a mixin too, and
of all that came with the closure its arguments are the first to hold the name. -/
structure BroughtAlong (frame : Frame sheet) (id : sheet.Id) (name : String) (nearer : List sheet.Id)
    (scope : Captured sheet) : Prop where
  mixin : (sheet.ruleset id).isMixin = true
  around : nearer ++ [scope.ruleset] <+: sheet.ancestors id
  undefined : ∀ ruleset ∈ nearer ++ [scope.ruleset], (sheet.ruleset ruleset).vars.get? name = none
  found : frame.captured.find? (fun scope => (scope.arguments.get? name).isSome) = some scope
  nearer : ∀ inner ∈ nearer, (sheet.ruleset inner).isMixin = true →
    ∃ other ∈ frame.captured, other.ruleset = inner ∧ other.arguments.get? name = none

theorem not_overtakes (unreturned : frame.returned.get? name = none)
    (same : (outwardScope frame outer parent).find? name = (aroundScope frame outer parent).find? name)
    (value : Tokens) : ¬Overtakes frame outer parent name value := by
  rintro ⟨_, _, outward, beyond⟩
  rw [beyondScope, Scope.find?_cons, Scope.find?_append, unreturned, Option.none_or, ← same, outward] at beyond
  exact beyond rfl

/-- What a frame sees of the arguments of a ruleset around, where no captured scope has the name. -/
theorem find?_outerArguments (lawful : Stack.Lawful (frame :: outer))
    (uncaptured : NotCaptured (frame :: outer) name) (ancestor : sheet.Id) :
    Scope.find? (outerArguments .root outer ancestor) name =
      Scope.find? (outerArguments frame outer ancestor) name := by
  obtain ⟨ofFrame, ofOuter⟩ := forall_mem_cons.mp uncaptured
  obtain ⟨top, rest⟩ := forall_mem_cons.mp lawful
  cases closed : frame.captured.find? fun captured => captured.ruleset = ancestor with
  | none => simp only [outerArguments, closed, Frame.root, List.find?_nil]
  | some captured =>
    -- The closure has brought along arguments of this ruleset, without the name; so
    -- a call of it that is still on the stack has no argument of this name either.
    have member := List.mem_of_find?_eq_some closed
    have same : captured.ruleset = ancestor := by simpa using List.find?_some closed
    have ofClosure : outerArguments frame outer ancestor = [captured.arguments] := by
      simp only [outerArguments, closed]
    rw [ofClosure, Scope.find?_cons, ofFrame captured member]
    cases called : outer.callOf? ancestor with
    | none =>
      simp only [outerArguments, Frame.root, List.find?_nil, called]
      rfl
    | some call =>
      obtain ⟨_, bound⟩ := Stack.Lawful.callOf rest called
      have bound' : Sheet.Binds ancestor captured.arguments := same ▸ top.captured captured member
      have none_ : call.arguments.get? name = none := by
        have unbound := bound.isSome_eq bound' name
        rw [ofFrame captured member] at unbound
        simpa using unbound
      simp only [outerArguments, Frame.root, List.find?_nil, called]
      rw [Scope.find?_cons, none_, find?_captured (ofOuter call (List.mem_of_find?_eq_some called))]
      rfl

theorem find?_outward_of_notCaptured (lawful : Stack.Lawful (frame :: outer))
    (uncaptured : NotCaptured (frame :: outer) name) :
    (outwardScope frame outer parent).find? name = (aroundScope frame outer parent).find? name := by
  have none_ : Scope.find? (if (sheet.ruleset parent).isMixin then frame.captured.map Captured.arguments else [])
      name = none := by
    split
    · exact find?_captured (uncaptured frame mem_cons_self)
    · rfl
  rw [outwardScope, Scope.find?_append, none_, Option.none_or]
  refine Scope.find?_flatMap_congr fun ancestor _ => ?_
  rw [ancestorScope, ancestorScope, Scope.find?_cons, Scope.find?_cons]
  split
  · rw [find?_outerArguments lawful uncaptured]
  · rfl

theorem outwardScope_of_uncaptured (none_ : frame.captured = []) :
    outwardScope frame outer parent = aroundScope frame outer parent := by
  have nothing : (if (sheet.ruleset parent).isMixin then frame.captured.map Captured.arguments else []) = [] := by
    rw [none_]
    exact ite_self _
  rw [outwardScope, nothing, nil_append, aroundScope, aroundScope]
  refine flatMap_congr fun ancestor _ => ?_
  simp only [ancestorScope, outerArguments, none_, Frame.root]

namespace BroughtAlong

variable {nearer : List sheet.Id} {scope : Captured sheet} (brought : BroughtAlong frame parent name nearer scope)

include brought

theorem find?_outward : (outwardScope frame outer parent).find? name = scope.arguments.get? name := by
  obtain ⟨holds, before, after, parts, lacking⟩ := List.find?_eq_some_iff_append.mp brought.found
  obtain ⟨value, found⟩ := Option.isSome_iff_exists.mp holds
  have none_ : Scope.find? (before.map Captured.arguments) name = none :=
    find?_captured fun other member => by simpa using lacking other member
  rw [outwardScope, if_pos brought.mixin, parts, map_append, map_cons, Scope.find?_append,
    Scope.find?_append, Scope.find?_cons, none_, found]
  rfl

theorem find?_nearer (lawful : frame.Lawful) {inner : sheet.Id} (member : inner ∈ nearer) :
    (ancestorScope frame outer inner).find? name = none := by
  rw [ancestorScope, Scope.find?_cons, brought.undefined inner (mem_append_left _ member), Option.none_or]
  split
  · rename_i mixin
    obtain ⟨other, inside, same, lacks⟩ := brought.nearer inner member mixin
    cases closed : frame.captured.find? fun captured => captured.ruleset = inner with
    | none => simpa [same] using List.find?_eq_none.mp closed other inside
    | some captured =>
      -- It holds the same names as the one that lacks this name.
      have bound : Sheet.Binds inner captured.arguments := by
        have own : captured.ruleset = inner := by simpa using List.find?_some closed
        exact own ▸ lawful.captured captured (List.mem_of_find?_eq_some closed)
      have bound' : Sheet.Binds inner other.arguments := same ▸ lawful.captured other inside
      have none_ : captured.arguments.get? name = none := by
        have unbound := bound.isSome_eq bound' name
        rw [lacks] at unbound
        simpa using unbound
      simp only [outerArguments, closed]
      rw [Scope.find?_cons, none_]
      rfl
  · rfl

theorem find?_around (lawful : frame.Lawful) :
    (aroundScope frame outer parent).find? name = scope.arguments.get? name := by
  obtain ⟨further, whole⟩ := brought.around
  obtain ⟨holds, before, after, parts, lacking⟩ := List.find?_eq_some_iff_append.mp brought.found
  have bound := lawful.captured scope (List.mem_of_find?_eq_some brought.found)
  obtain ⟨value, found⟩ := Option.isSome_iff_exists.mp holds
  have inner : Scope.find? (nearer.flatMap (ancestorScope frame outer)) name = none := by
    rw [Scope.find?, List.findSome?_eq_none_iff]
    intro vars member
    obtain ⟨ruleset, inside, member⟩ := mem_flatMap.mp member
    exact List.findSome?_eq_none_iff.mp (brought.find?_nearer lawful inside) vars member
  have mixin : (sheet.ruleset scope.ruleset).isMixin = true := by
    by_contra plain
    cases found.symm.trans (bound.get?_of_plain (by simpa using plain) name)
  have first : frame.captured.find? (fun captured => captured.ruleset = scope.ruleset) = some scope := by
    refine List.find?_eq_some_iff_append.mpr ⟨by simp, before, after, parts, fun other member => ?_⟩
    -- Another one of the same ruleset would hold the name as well.
    have known : other.Lawful := lawful.captured other (parts ▸ mem_append_left _ member)
    by_contra same
    have same : other.ruleset = scope.ruleset := by simpa using same
    have bound' : Sheet.Binds scope.ruleset other.arguments := same ▸ known
    have lacks := lacking other member
    rw [bound'.isSome_eq bound name, holds] at lacks
    cases lacks
  rw [aroundScope, ← whole, flatMap_append, flatMap_append, flatMap_singleton, Scope.find?_append,
    Scope.find?_append, inner, Option.none_or, ancestorScope, Scope.find?_cons,
    brought.undefined _ (mem_append_right _ mem_cons_self), if_pos mixin, outerArguments, first,
    Option.none_or]
  dsimp only
  rw [Scope.find?_cons, found]
  rfl

end BroughtAlong

end Stack

namespace Evaluator

theorem exists_before {sheet : Sheet} {history : List (Moment sheet)} {context : Context sheet}
    (traced : Traced history context) {moment : Moment sheet} (member : moment ∈ history) :
    ∃ before : Context sheet, moment.context = before.after moment.step := by
  induction traced with
  | start => cases member
  | @take history context _ step ih =>
    rcases mem_cons.mp member with rfl | earlier
    · exact ⟨context, rfl⟩
    · exact ih earlier

def entered? (moment : Moment sheet) : Option sheet.Id :=
  match moment.step with
  | .push ⟨some id, ⟨[]⟩, ⟨[]⟩, [], [], .ruleset⟩ => some id
  | _ => none

theorem step_of_entered? {moment : Moment sheet} {id : sheet.Id} (found : entered? moment = some id) :
    moment.step = .push (.ofRuleset id) := by
  unfold entered? at found
  split at found
  · rename_i step
    cases found
    exact step
  · cases found

def anyEntered (run : Run sheet)
    (condition : (frame : Frame sheet) → (outer : Stack sheet) → (parent child : sheet.Id) → Bool) : Bool :=
  run.history.any fun moment => moment.context.stack.tail.head?.any fun frame =>
    frame.ruleset.any fun parent => (sheet.nested parent).any fun child =>
      entered? moment == some child.val && condition frame moment.context.stack.tail.tail parent child.val

theorem exists_of_anyEntered {run : Run sheet}
    {condition : (frame : Frame sheet) → (outer : Stack sheet) → (parent child : sheet.Id) → Bool}
    (found : anyEntered run condition = true) :
    ∃ (before : Context sheet) (frame : Frame sheet) (outer : Stack sheet) (parent : sheet.Id)
      (child : { c : sheet.Id // parent < c }),
      ⟨.push (.ofRuleset child.val), before.push (.ofRuleset child.val)⟩ ∈ run.history ∧
      before.stack = frame :: outer ∧ frame.ruleset = some parent ∧ child ∈ sheet.nested parent ∧
      condition frame outer parent child.val = true := by
  obtain ⟨⟨step, context⟩, member, found⟩ := any_eq_true.mp found
  obtain ⟨frame, top, found⟩ := (Option.any_eq_true _ _).mp found
  obtain ⟨parent, here, found⟩ := (Option.any_eq_true _ _).mp found
  obtain ⟨child, inside, found⟩ := any_eq_true.mp found
  obtain ⟨entered, holds⟩ := Bool.and_eq_true_iff.mp found
  obtain rfl := step_of_entered? (beq_iff_eq.mp entered)
  obtain ⟨before, same⟩ := exists_before run.traced member
  obtain rfl : context = before.push (.ofRuleset child.val) := same
  obtain ⟨outer, stack⟩ := List.head?_eq_some_iff.mp top
  have below : before.stack = frame :: outer := stack
  refine ⟨before, frame, outer, parent, child, member, below, here, inside, ?_⟩
  change condition frame before.stack.tail parent child.val = true at holds
  rwa [below] at holds

def nestedVariables : String :=
  ".m() \x7b @c: 1px; @e: 3px \x7d .g \x7b @c: 2px; .p \x7b .m(); .n \x7b width: @c \x7d \x7d \x7d " ++
    ".outer(@k) \x7b .inner() \x7b .n \x7b color: @k \x7d \x7d \x7d .b \x7b .outer(red); .inner(); \x7d"

/-- The text compiles, and in its run a nested ruleset is entered that gives `@c` another value. -/
def Changes (text css : String) : Prop :=
  ∃ (sheet : Sheet) (result : Except Error Css.Stylesheet) (run : Run sheet) (before : Context sheet)
    (frame : Frame sheet) (outer : Stack sheet) (parent : sheet.Id) (child : { c : sheet.Id // parent < c }),
    (Sheet.read defaultSourceName text).outcome.1.toOption = some sheet ∧
    (new .builtin).run sheet = some (result, run) ∧
    ⟨.push (.ofRuleset child.val), before.push (.ofRuleset child.val)⟩ ∈ run.history ∧
    before.stack = frame :: outer ∧ frame.ruleset = some parent ∧ child ∈ sheet.nested parent ∧
    (sheet.ruleset child.val).kind = .plain ∧ (sheet.ruleset child.val).vars.get? "@c" = none ∧
    (before.push (.ofRuleset child.val)).lookup? "@c" ≠ before.lookup? "@c" ∧
    (compile ⟨false, none⟩ text).outcome.1.toOption = some css

def changes (text css : String) : Bool :=
  (Sheet.read defaultSourceName text).outcome.1.toOption.any fun sheet =>
    ((new .builtin).run sheet).any fun ended =>
      anyEntered ended.2 fun frame outer _ child =>
        (sheet.ruleset child).kind == .plain && (sheet.ruleset child).vars.get? "@c" == none &&
        (scope (.ofRuleset child :: frame :: outer)).find? "@c" != (scope (frame :: outer)).find? "@c" &&
        (compile ⟨false, none⟩ text).outcome.1.toOption == some css

theorem changes_of_run {text css : String} (checked : changes text css = true) : Changes text css := by
  obtain ⟨sheet, read, checked⟩ := (Option.any_eq_true _ _).mp checked
  obtain ⟨⟨result, run⟩, ends, checked⟩ := (Option.any_eq_true _ _).mp checked
  obtain ⟨before, frame, outer, parent, child, pushed, stack, here, inside, checked⟩ :=
    exists_of_anyEntered checked
  simp only [Bool.and_eq_true, beq_iff_eq, bne_iff_ne] at checked
  obtain ⟨⟨⟨plain, undefined⟩, differs⟩, compiled⟩ := checked
  refine ⟨sheet, result, run, before, frame, outer, parent, child, read, ends, pushed, stack, here, inside,
    plain, undefined, ?_, compiled⟩
  rwa [lookup?, lookup?, push, stack]

def leftBehindOne : String :=
  ".m() \x7b @c: 1px \x7d .g \x7b @c: 2px; .p \x7b .m(); width: @c; .n \x7b width: @c \x7d \x7d \x7d"

def broughtFromAfar : String :=
  ".o(@c) \x7b .p \x7b @c: 5px; .q() \x7b .r() \x7b width: @c; .n \x7b width: @c \x7d \x7d \x7d \x7d " ++
    ".p .q(); .r(); \x7d .a \x7b .o(1px); \x7d"

end Evaluator

end LessCss
