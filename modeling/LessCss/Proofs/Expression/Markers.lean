import LessCss.Proofs.Expression.Flow
import LessCss.Proofs.Expression.Holes
import LessCss.Proofs.Processor.Values
import LessCss.Proofs.Value.Braces
import LessCss.Proofs.Value.Literals

/-! Markers in evaluated values. Main statement: if braces stand in holes only, the
evaluation of a value leaves no marker, except in the groups of functions that are
computed later: there a token is copied with the marker in it. -/

set_option autoImplicit false

namespace LessCss

open List

open Text (Unbraced Marked)

namespace Text

def OnlyHoles (text : String) : Prop := Piece.char '\x7b' ∉ pieces text.toList

instance (text : String) : Decidable (OnlyHoles text) :=
  inferInstanceAs (Decidable (Piece.char '\x7b' ∉ pieces text.toList))

theorem Unbraced.unmarked {text : String} (free : Unbraced text) : ¬Marked text := fun marked => free marked.brace_mem

theorem Unbraced.onlyHoles {text : String} (free : Unbraced text) : OnlyHoles text := by
  rw [OnlyHoles, pieces_of_unmarked (by rw [String.ofList_toList]; exact free.unmarked)]
  intro member
  obtain ⟨c, inside, same⟩ := mem_map.mp member
  cases same
  exact free inside

theorem unbraced_join {texts : List String} (each : ∀ text ∈ texts, Unbraced text) : Unbraced (String.join texts) := by
  induction texts with
  | nil => decide
  | cons text texts ih =>
    obtain ⟨first, others⟩ := forall_mem_cons.mp each
    rw [String.join_cons, unbraced_append]
    exact ⟨first, ih others⟩

end Text

/-! ### Filled holes -/

/-- Braces stand in holes only, and these are filled if the token is computed. -/
def Token.Fillable (token : Token) : Prop :=
  Unbraced token.text ∨ token.kind.isFilled = true ∧ Text.OnlyHoles token.text

instance (token : Token) : Decidable token.Fillable :=
  inferInstanceAs (Decidable (Unbraced token.text ∨ token.kind.isFilled = true ∧ Text.OnlyHoles token.text))

theorem Token.Fillable.onlyHoles {token : Token} (fillable : token.Fillable) : Text.OnlyHoles token.text :=
  fillable.elim Text.Unbraced.onlyHoles And.right

theorem Token.Fillable.unbraced {token : Token} (fillable : token.Fillable) (other : token.kind.isFilled = false) :
    Unbraced token.text :=
  fillable.resolve_right fun filled => by
    rw [other] at filled
    cases filled.1

theorem Tokens.unbraced_text {tokens : Tokens} (each : ∀ token ∈ tokens, Unbraced token.text) :
    Unbraced tokens.text := by
  refine Text.unbraced_join fun text member => ?_
  obtain ⟨token, inside, rfl⟩ := mem_map.mp member
  exact each token inside

namespace Environment

theorem unbraced_holeText {tokens : Tokens} (each : ∀ token ∈ tokens, Unbraced token.text) :
    Unbraced (holeText tokens) := by
  unfold holeText
  split
  · split
    · exact (each _ mem_cons_self).unquote
    · exact each _ mem_cons_self
  · exact Tokens.unbraced_text each

def braceless : Flow where
  token token := Unbraced token.text
  value := Value.Unbraced
  written out := ∀ token ∈ out, Unbraced token.text

variable {env : Environment} (known : braceless.KnowsAll env)

theorem unbraced_filled {grouped : Bool} {at_ : Token} {text : String} (holes : Text.OnlyHoles text)
    (fills : ∀ name, .hole name ∈ Text.pieces text.toList → Returns (env.pieceText grouped at_ (.hole name)) Unbraced) :
    Returns (env.interpolate grouped at_ text) Unbraced := by
  have each : ∀ piece ∈ Text.pieces text.toList, Returns (env.pieceText grouped at_ piece) Unbraced := by
    intro piece member
    cases piece with
    | char c =>
      refine returns_ok fun brace => holes ?_
      rw [String.toList_singleton, mem_singleton] at brace
      rwa [brace]
    | hole name => exact fills name member
  exact (returns_mapM _ each).bind fun texts free => returns_ok (Text.unbraced_join free)

include known

theorem unbraced_interpolate (grouped : Bool) (at_ : Token) {text : String} (holes : Text.OnlyHoles text) :
    Returns (env.interpolate grouped at_ text) Unbraced := by
  refine unbraced_filled holes fun name _ => ?_
  rw [pieceText]
  cases found : env.lookup? ("@" ++ name) with
  | none => exact returns_error
  | some definition => exact ((known _ definition found).tokens grouped at_).map fun _ => unbraced_holeText

theorem unbraced_interpolateToken (grouped : Bool) {token : Token} (holes : Text.OnlyHoles token.text) :
    Returns (env.interpolateToken grouped token) fun filled => Unbraced filled.text :=
  (unbraced_interpolate known grouped token holes).bind fun _ free => returns_ok free

theorem unbraced_literal (grouped : Bool) {token : Token} (fillable : token.Fillable) :
    Returns (env.literal? grouped token) fun value? => ∀ value ∈ value?, value.Unbraced := by
  have filled := unbraced_interpolate known grouped token fillable.onlyHoles
  have one {read : String → Value} {text : String} (free : (read text).Unbraced) :
      ∀ value ∈ (some ∘ read) text, value.Unbraced := by
    rintro value ⟨⟩
    exact free
  rw [literal?]
  cases kind : token.kind with
  | string => exact filled.map fun _ free => one (Value.unbraced_ofStringLiteral free)
  | url =>
    refine filled.map fun text free value found => ?_
    obtain ⟨inner, quote, same, free'⟩ := Value.exists_ofUrlLiteral free
    rw [Function.comp_apply, same] at found
    cases found
    exact free'
  | identifier => exact filled.map fun _ free => one (Value.unbraced_ofIdentifier free)
  | atKeyword => exact known.valueOf grouped token.text token
  | hash => exact returns_ok (one (Value.unbraced_ofHash (fillable.unbraced (by rw [kind]; rfl))))
  | number | percentage | dimension =>
    exact returns_ok (one (Value.unbraced_ofNumeric (fillable.unbraced (by rw [kind]; rfl))))
  | _ =>
    refine returns_ok fun value found => ?_
    cases found

theorem unbraced_escaped (grouped : Bool) {token : Token} (fillable : token.Fillable) :
    Returns (env.escaped grouped token) Value.Unbraced :=
  (unbraced_interpolate known grouped token fillable.onlyHoles).map fun _ free => free.unquote

omit known in
theorem unbraced_operate (mark : Token) (op : Operator) {lhs rhs : Value} (left : lhs.Unbraced) (right : rhs.Unbraced) :
    Returns (operate mark op lhs rhs) Value.Unbraced := by
  rw [operate]
  cases done : lhs.operate op rhs with
  | ok value => exact returns_ok (left.operate right done)
  | error cause => exact returns_error

omit known in
theorem unbraced_call {library : Library} (free : library.Unbraced) (name : String) (at_ : Token) {arguments : List Value}
    (each : ∀ argument ∈ arguments, argument.Unbraced) :
    Returns (library.call name at_ arguments) Value.Unbraced := by
  rw [Library.call]
  cases found : library.find? name with
  | none => exact returns_error
  | some function =>
    dsimp only
    split
    · exact returns_ok (free.find found each)
    · exact returns_error

theorem admits_braceless (free : env.library.Unbraced) : braceless.Admits env where
  literal grouped fine := unbraced_literal known grouped (.inl fine)
  variable_ := known.valueOf
  escaped grouped fine _ := unbraced_escaped known grouped (.inl fine)
  keyword fine _ := fine
  argument fine _ _ _ := fine
  zero := (by decide : Unbraced "")
  operate mark op left right := unbraced_operate mark op left right
  call _ each := unbraced_call free _ _ each
  writtenBack _ holds := holds.css
  nil := forall_mem_nil _
  append front back := forall_mem_append.mpr ⟨front, back⟩
  space := forall_mem_singleton.mpr (by decide)
  computed _ holds := forall_mem_singleton.mpr holds.css
  resolved := known.resolve
  filled grouped fine _ :=
    (unbraced_interpolateToken known grouped fine.onlyHoles).mono fun _ free => forall_mem_singleton.mpr free
  copied fine _ _ := forall_mem_singleton.mpr fine
  deferred grouped fine _ _ _ := by
    obtain ⟨name, rest⟩ := forall_mem_cons.mp fine
    obtain ⟨opening, group⟩ := forall_mem_cons.mp rest
    refine (known.substitute (fun _ => id) (fun token member _ => group token member) grouped).mono fun _ free => ?_
    exact forall_mem_cons.mpr ⟨name, forall_mem_cons.mpr ⟨opening, free⟩⟩
  untouched grouped fine _ := returns_mapM _ fun token member =>
    unbraced_interpolateToken known grouped (fine token member).onlyHoles

end Environment

/-! ### Markers that are left -/

namespace Tokens

def Defers (tokens : Tokens) : Prop :=
  ∃ front name opening between, tokens = front ++ name :: opening :: between ∧ name.kind = .identifier ∧
    deferredFunctions.contains name.text.toLower = true ∧ opening.kind = .parenOpen

/-- A marker is left only in a token of the input that was copied behind the opening
of a function that is computed later. -/
def LeavesMarkers (input out : Tokens) : Prop :=
  ∀ before token after, out = before ++ token :: after → Marked token.text → token ∈ input ∧ Defers before

namespace LeavesMarkers

variable {input first second out : Tokens}

theorem of_unmarked (unmarked : ∀ token ∈ out, ¬Marked token.text) : LeavesMarkers input out := by
  intro before token after same marked
  exact absurd marked (unmarked token (by simp [same]))

theorem append (front : LeavesMarkers input first) (back : LeavesMarkers input second) :
    LeavesMarkers input (first ++ second) := by
  intro before token after same marked
  -- The token stands in the second list, or in the first one.
  rcases append_eq_append_iff.mp same with ⟨between, rfl, same'⟩ | ⟨between, rfl, same'⟩
  · obtain ⟨member, front, name, opening, rest, rfl, defers⟩ := back between token after same' marked
    exact ⟨member, first ++ front, name, opening, rest, by rw [List.append_assoc], defers⟩
  · cases between with
    | nil =>
      rw [nil_append] at same'
      obtain ⟨member, front, name, opening, rest, nothing, _⟩ := back [] token after same'.symm marked
      simp at nothing
    | cons other between =>
      cases same'
      exact front before token between rfl marked

/-- Tokens of the input may stand in the group of a function that is computed later. -/
theorem deferred {name opening : Token} (kind : name.kind = .identifier)
    (later : deferredFunctions.contains name.text.toLower = true) (opens : opening.kind = .parenOpen)
    (paren : opening.text = "(") (each : ∀ token ∈ out, Marked token.text → token ∈ input) :
    LeavesMarkers input (name :: opening :: out) := by
  -- The name is one of a fixed list, none of which has a brace.
  have plain : ¬Marked name.text := by
    intro marked
    have brace : '\x7b' ∈ name.text.toLower.toList := by
      rw [Text.toList_toLower]
      exact mem_map.mpr ⟨_, marked.brace_mem, rfl⟩
    have known : ∀ text ∈ deferredFunctions, '\x7b' ∉ text.toList := by decide
    exact known _ (contains_iff_mem.mp later) brace
  have plain' : ¬Marked opening.text := by
    rw [paren]
    exact Text.Unbraced.unmarked (by decide)
  intro before token after same marked
  cases before with
  | nil =>
    cases same
    exact absurd marked plain
  | cons one before =>
    cases before with
    | nil =>
      cases same
      exact absurd marked plain'
    | cons two before =>
      cases same
      exact ⟨each token (by simp) marked, [], name, opening, before, rfl, kind, later, opens⟩

end LeavesMarkers

end Tokens

namespace Environment

def copying (input : Tokens) : Flow where
  token token := token.Fillable ∧ (Marked token.text → token ∈ input) ∧ (token.kind = .parenOpen → token.text = "(")
  value := Value.Unbraced
  written := input.LeavesMarkers

variable {env : Environment} (known : braceless.KnowsAll env) (input : Tokens)

include known

theorem admits_copying (free : env.library.Unbraced) : (copying input).Admits env where
  literal grouped fine := unbraced_literal known grouped fine.1
  variable_ := known.valueOf
  escaped grouped fine _ := unbraced_escaped known grouped fine.1
  keyword fine other := fine.1.unbraced other
  argument _ fine opens separates := by
    rw [fine.2.2 opens] at separates
    cases separates
  zero := (by decide : Unbraced "")
  operate mark op left right := unbraced_operate mark op left right
  call _ each := unbraced_call free _ _ each
  writtenBack at_ holds := by
    have free := holds.css
    exact ⟨.inl free, fun marked => absurd marked free.unmarked, fun opens => absurd opens (Value.tokenKind_ne _ rfl)⟩
  nil := .of_unmarked (forall_mem_nil _)
  append front back := front.append back
  space := .of_unmarked (forall_mem_singleton.mpr (Text.Unbraced.unmarked (by decide)))
  computed _ holds := .of_unmarked (forall_mem_singleton.mpr holds.css.unmarked)
  resolved grouped token :=
    (known.resolve grouped token).mono fun _ free => .of_unmarked fun token member => (free token member).unmarked
  filled grouped fine _ :=
    (unbraced_interpolateToken known grouped fine.1.onlyHoles).mono fun _ free =>
      .of_unmarked (forall_mem_singleton.mpr free.unmarked)
  copied fine other _ := .of_unmarked (forall_mem_singleton.mpr (fine.1.unbraced other).unmarked)
  deferred {name opening group} grouped fine kind opens later := by
    obtain ⟨_, rest⟩ := forall_mem_cons.mp fine
    obtain ⟨second, inside⟩ := forall_mem_cons.mp rest
    -- A token in the group is kept with its marker, and what comes from a variable has none.
    have copied := known.substitute (fun _ free token member marked => absurd marked (free token member).unmarked)
      (fun token member _ => (inside token member).2.1) grouped
    exact copied.mono fun _ each => .deferred kind later opens (second.2.2 opens) each
  untouched grouped fine _ :=
    (returns_mapM _ fun token member => unbraced_interpolateToken known grouped (fine token member).1.onlyHoles).mono
      fun _ free => .of_unmarked fun token member => (free token member).unmarked

end Environment

/-! ### Values in a scope -/

theorem Scan.text_of_parenOpen {position : Position} {last : Option Token} {cs : List Char} {token : Token}
    (member : token ∈ (run last ⟨cs, position⟩).tokens) (opens : token.kind = .parenOpen) : token.text = "(" := by
  obtain ⟨last, c, own, rest, spelled, read⟩ := exists_read member
  have cases_ := Lexeme.read_cases read
  rw [opens] at cases_
  have mark : Kind.parenOpen = Lexeme.markKind c ∧ own.length = 0 := by simpa [Kind.isNumeric] using cases_
  have paren : c = '(' := by
    have same := mark.1
    grind [Lexeme.markKind]
  rw [paren, length_eq_zero_iff.mp mark.2] at spelled
  exact String.toList_injective spelled

structure Tokens.Fillable (library : Library) (tokens : Tokens) : Prop where
  holes : ∀ token ∈ tokens, Marked token.text → Text.OnlyHoles token.text
  computed : tokens.computes library = true → ∀ token ∈ tokens, token.Fillable

namespace Scope

open Environment (braceless copying)

variable {library : Library} (free : library.Unbraced) {scope : Scope}
  (plain : ∀ name value, scope.find? name = some value → ∀ token ∈ value, Unbraced token.text)

include free plain

theorem knowsAll_braceless (active : List String) :
    braceless.KnowsAll ⟨library, scope.definition? library active⟩ := by
  refine Flow.knowsAll_definition? plain (fun _ known => Environment.admits_braceless known free) ?_ active
  exact fun _ free token member => free token (Tokens.mem_of_mem_trim member)

/-- Where nothing is computed, all holes are filled. -/
theorem unmarked_evaluate {tokens : Tokens} (holes : ∀ token ∈ tokens, Marked token.text → Text.OnlyHoles token.text)
    (nothing : tokens.computes library = false) (active : List String) (grouped : Bool) :
    Returns (Environment.evaluate ⟨library, scope.definition? library active⟩ grouped tokens) fun out =>
      ∀ token ∈ out, ¬Marked token.text := by
  rw [Environment.evaluate, if_neg (by simp [nothing])]
  refine returns_mapM tokens fun token member => ?_
  by_cases marked : Marked token.text
  · have filled := Environment.unbraced_interpolateToken (knowsAll_braceless free plain active) grouped
      (holes token member marked)
    exact filled.mono fun _ free => free.unmarked
  · rw [Environment.interpolateToken_of_unmarked _ _ marked]
    exact returns_ok marked

theorem leavesMarkers_evaluate {source text : String} {tokens : Tokens}
    (scanned : tokens ⊆ (Scan.ofText source text).tokens) (each : ∀ token ∈ tokens, token.Fillable)
    (active : List String) (grouped : Bool) :
    Returns (Environment.evaluate ⟨library, scope.definition? library active⟩ grouped tokens) tokens.LeavesMarkers := by
  have admits := Environment.admits_copying (knowsAll_braceless free plain active) tokens free
  refine Flow.written_evaluate admits grouped tokens fun token member => ?_
  exact ⟨each token member, fun _ => member, Scan.text_of_parenOpen (scanned member)⟩

/-- In a scope whose values have no braces, and with functions that bring in none, the
evaluation of scanned tokens with braces in holes only leaves a marker nowhere but in a
copied token behind the opening of a function that is computed later, and nowhere at all
if there is nothing to compute. -/
theorem markers_left_deferred {source text : String} {tokens : Tokens}
    (scanned : tokens ⊆ (Scan.ofText source text).tokens) (fillable : tokens.Fillable library) (processor : Processor) :
    ∃ result, Processing.Keeps ((scope.setting library).value tokens) processor result ∧ Returns result fun out =>
      tokens.LeavesMarkers out ∧ (tokens.computes library = false → ∀ token ∈ out, ¬Marked token.text) := by
  refine ⟨_, (handles_setting library scope processor.evaluating).value processor.parens tokens, ?_⟩
  -- Where nothing is computed every token is interpolated, of whatever kind.
  cases something : tokens.computes library with
  | true =>
    have leaves := leavesMarkers_evaluate free plain scanned (fillable.computed something) processor.evaluating
      (processor.parens != 0)
    exact leaves.mono fun _ left => ⟨left, nofun⟩
  | false =>
    have filled := unmarked_evaluate free plain fillable.holes something processor.evaluating (processor.parens != 0)
    exact filled.mono fun _ unmarked => ⟨.of_unmarked unmarked, fun _ => unmarked⟩

omit free plain

theorem mem_of_find? {scope : Scope} {name : String} {value : Tokens} (found : scope.find? name = some value) :
    ∃ vars ∈ scope, (name, value) ∈ vars.entries := by
  obtain ⟨vars, member, read⟩ := List.exists_of_findSome?_eq_some found
  obtain ⟨before, after, same, _⟩ := lookup_eq_some_iff.mp read
  exact ⟨vars, member, by simp [same]⟩

def gapped : Scope := [⟨[("@n", (Scan.ofText "in" "gap").tokens), ("@k", (Scan.ofText "in" "solid").tokens)]⟩]

theorem unbraced_gapped (name : String) (value : Tokens) (found : gapped.find? name = some value) :
    ∀ token ∈ value, Unbraced token.text := by
  have each : (gapped.all fun vars => vars.entries.all fun entry =>
      entry.2.all fun token => decide (Unbraced token.text)) = true := by
    decide +kernel
  obtain ⟨vars, member, defined⟩ := mem_of_find? found
  have entry := all_eq_true.mp (all_eq_true.mp each vars member) (name, value) defined
  exact fun token inside => of_decide_eq_true (all_eq_true.mp entry token inside)

def holed : Tokens :=
  (Scan.ofText "in" "'a@\x7bn\x7d' calc(@k --@\x7bn\x7d) e('<@\x7bn\x7d>') x@\x7bn\x7d").tokens

theorem holed_left_deferred : ∃ out, Processing.Keeps ((gapped.setting .builtin).value holed) .fresh (.ok out) ∧
    holed.computes .builtin = true ∧ Tokens.text out = "'agap' calc(solid --@\x7bn\x7d) <gap> xgap" ∧
    holed.LeavesMarkers out := by
  have checked : (((gapped.setting .builtin).value holed).run.run .fresh).any (fun ended =>
      ended.1.toOption.any fun out => Tokens.text out == "'agap' calc(solid --@\x7bn\x7d) <gap> xgap") = true := by
    decide +kernel
  have computes : holed.computes .builtin = true := by decide +kernel
  have each : holed.all (fun token => decide token.Fillable) = true := by decide +kernel
  have each' : ∀ token ∈ holed, token.Fillable := fun token member =>
    of_decide_eq_true (all_eq_true.mp each token member)
  have fillable : holed.Fillable .builtin := ⟨fun token member _ => (each' token member).onlyHoles, fun _ => each'⟩
  have scanned : holed ⊆ (Scan.ofText "in" _).tokens := List.Subset.refl _
  obtain ⟨result, keeps, leaves⟩ :=
    markers_left_deferred Library.unbraced_builtin unbraced_gapped scanned fillable .fresh
  rw [keeps] at checked
  cases result with
  | error error => cases checked
  | ok out => exact ⟨out, keeps, computes, beq_iff_eq.mp checked, (leaves out rfl).1⟩

/-- The marker in a group that is computed later is left, although nothing stands in its way. -/
theorem calcGroup_keeps_marker : ∃ out, Processing.Keeps
    ((gapped.setting .builtin).value (Scan.ofText "in" "calc(100% - var(--@\x7bn\x7d))").tokens) .fresh (.ok out) ∧
    ∃ token ∈ out, Marked token.text := by
  have checked : (((gapped.setting .builtin).value
      (Scan.ofText "in" "calc(100% - var(--@\x7bn\x7d))").tokens).run.run .fresh).any (fun ended =>
        ended.1.toOption.any fun out => out.any fun token => token.text == "--@\x7bn\x7d") = true := by
    decide +kernel
  obtain ⟨result, keeps⟩ : ∃ result, Processing.Keeps ((gapped.setting .builtin).value
      (Scan.ofText "in" "calc(100% - var(--@\x7bn\x7d))").tokens) .fresh result :=
    ⟨_, (handles_setting .builtin gapped []).value 0 _⟩
  rw [keeps] at checked
  cases result with
  | error error => cases checked
  | ok out =>
    obtain ⟨token, member, same⟩ := any_eq_true.mp checked
    refine ⟨out, keeps, token, member, ['-', '-'], ['n'], [], ?_⟩
    rw [beq_iff_eq.mp same]
    rfl

end Scope

end LessCss
