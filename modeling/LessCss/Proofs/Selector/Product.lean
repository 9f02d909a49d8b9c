import LessCss.Compile
import LessCss.Proofs.Token.Brackets

/-! Selectors of rulesets inside one another. Main statement: where brackets match, a nested
selector has exactly one branch for each branch of the outer selector with each branch of
the inner one, so that along a chain of rulesets the numbers of branches multiply. -/

set_option autoImplicit false

namespace LessCss

open List

/-- A token of the kind of a bracket is a bracket. -/
def Token.Spelled (token : Token) : Prop :=
  (token.kind.opens || token.kind.closes) = true → token.text ∈ ["(", ")", "[", "]"]

instance (token : Token) : Decidable token.Spelled :=
  inferInstanceAs (Decidable (_ → _))

structure Tokens.WellBracketed (tokens : Tokens) : Prop extends Bracketed tokens where
  spelled : ∀ token ∈ tokens, token.Spelled

instance (tokens : Tokens) : Decidable tokens.WellBracketed :=
  decidable_of_iff (tokens.Bracketed ∧ ∀ token ∈ tokens, token.Spelled)
    ⟨fun both => ⟨both.1, both.2⟩, fun whole => ⟨whole.toBracketed, whole.spelled⟩⟩

theorem Tokens.mem_of_mem_branches {tokens branch : Tokens} (member : branch ∈ branches tokens) {token : Token}
    (inside : token ∈ branch) : token ∈ tokens := by
  obtain ⟨front, back, same, _⟩ := inside_of_mem_branches member
  rw [same]
  simp [inside]

namespace Selector

open Tokens

variable {outer inner : Tokens}

/-! ### One branch inside another -/

theorem bracketed_parentMark {token : Token} (spelled : token.Spelled) (mark : isParentMark token = true) :
    Bracketed [token] := by
  have plain : (token.kind.opens || token.kind.closes) = false := by
    refine Bool.eq_false_iff.mpr fun bracket => ?_
    have text := spelled bracket
    rw [beq_iff_eq.mp mark] at text
    revert text
    decide
  rw [Bool.or_eq_false_iff] at plain
  exact ⟨⟨fun closes => absurd closes (by simp [plain]), trivial⟩, by simp [Closed, depthAfter, Kind.depthAfter, plain]⟩

/-- Marks are replaced by the outer branch, inside brackets or outside. -/
theorem spliced_parentMarks (whole : IsBranch outer) (spelled : ∀ token ∈ inner, token.Spelled) :
    Spliced inner (inner.flatMap fun token => if isParentMark token then outer else [token]) := by
  induction inner with
  | nil => exact .nil
  | cons token rest ih =>
    obtain ⟨first, others⟩ := forall_mem_cons.mp spelled
    rw [flatMap_cons]
    split
    · rename_i mark
      exact .replace (bracketed_parentMark first mark) whole (ih others)
    · exact .keep token (ih others)

theorem isBranch_spaced (first : IsBranch outer) (second : IsBranch inner) : IsBranch (outer ++ Token.space :: inner) := by
  have level : depthAfter 0 (outer ++ Token.space :: inner) = depthAfter 0 inner := by
    rw [depthAfter_append, first.closed]
    rfl
  obtain ⟨token, rest, rfl⟩ := exists_cons_of_ne_nil second.ne_nil
  refine ⟨⟨?_, by simp, level.trans second.closed, ?_⟩, ?_⟩
  · refine trim_eq_self (fun token found => ?_) fun token found => ?_
    · obtain ⟨token', rest', rfl⟩ := exists_cons_of_ne_nil first.ne_nil
      exact head_of_trim first.trimmed found
    · exact getLast_of_trim second.trimmed (by simpa using found)
  · rw [uncut_append, first.closed]
    exact ⟨first.uncut, by decide, second.uncut⟩
  · rw [covered_append, first.closed]
    exact ⟨first.covered, by decide, second.covered⟩

theorem isBranch_nestBranch (first : IsBranch outer) (second : IsBranch inner) (spelled : ∀ token ∈ inner, token.Spelled) :
    IsBranch (nestBranch outer inner) := by
  rw [nestBranch]
  split
  · exact (spliced_parentMarks first spelled).isBranch second
  · exact isBranch_spaced first second

theorem mem_nestBranch {token : Token} (member : token ∈ nestBranch outer inner) :
    token ∈ outer ∨ token = .space ∨ token ∈ inner := by
  rw [nestBranch] at member
  split at member
  · obtain ⟨own, inside, found⟩ := mem_flatMap.mp member
    split at found
    · exact .inl found
    · exact .inr (.inr (mem_singleton.mp found ▸ inside))
  · simpa using member

/-! ### Selectors -/

def product (outer inner : Tokens) : List Tokens :=
  outer.branches.flatMap fun o => inner.branches.map (nestBranch o)

theorem length_product (outer inner : Tokens) :
    (product outer inner).length = outer.branches.length * inner.branches.length := by
  simp [product, length_flatMap, map_const']

theorem isBranch_of_mem_product (first : outer.WellBracketed) (second : inner.WellBracketed) {branch : Tokens}
    (member : branch ∈ product outer inner) : IsBranch branch := by
  obtain ⟨o, outside, combined⟩ := mem_flatMap.mp member
  obtain ⟨i, inside, rfl⟩ := mem_map.mp combined
  exact isBranch_nestBranch (isBranch_of_mem_branches first.toBracketed outside)
    (isBranch_of_mem_branches second.toBracketed inside)
    fun token found => second.spelled token (mem_of_mem_branches inside found)

theorem branches_nest (first : outer.WellBracketed) (second : inner.WellBracketed) :
    (nest outer inner).branches = if outer.branches = [] then inner.branches else product outer inner := by
  rw [nest]
  by_cases none_ : outer.branches = []
  · rw [if_pos none_, if_pos (List.isEmpty_iff.mpr none_)]
    exact branches_joinBranches fun branch member => (isBranch_of_mem_branches second.toBracketed member).toIsPart
  · rw [if_neg none_, if_neg (mt List.isEmpty_iff.mp none_)]
    exact branches_joinBranches fun branch member => (isBranch_of_mem_product first second member).toIsPart

theorem wellBracketed_nest (first : outer.WellBracketed) (second : inner.WellBracketed) :
    (nest outer inner).WellBracketed := by
  have joined {list : List Tokens} (each : ∀ branch ∈ list, IsBranch branch)
      (spelled : ∀ branch ∈ list, ∀ token ∈ branch, token.Spelled) : (joinBranches list).WellBracketed := by
    refine ⟨.joinBranches fun branch member => (each branch member).bracketed, fun token member => ?_⟩
    rcases mem_joinBranches member with rfl | rfl | ⟨branch, found, inside⟩
    · decide
    · decide
    · exact spelled branch found token inside
  rw [nest]
  split
  · exact joined (fun _ => isBranch_of_mem_branches second.toBracketed)
      fun branch member token inside => second.spelled token (mem_of_mem_branches member inside)
  · refine joined (fun _ => isBranch_of_mem_product first second) fun branch member token inside => ?_
    obtain ⟨o, outside, combined⟩ := mem_flatMap.mp member
    obtain ⟨i, own, rfl⟩ := mem_map.mp combined
    rcases mem_nestBranch inside with found | rfl | found
    · exact first.spelled token (mem_of_mem_branches outside found)
    · decide
    · exact second.spelled token (mem_of_mem_branches own found)

/-! ### Chains of rulesets -/

def nestAll (chain : List Tokens) : Tokens := chain.foldl nest []

theorem nest_of_nil (outer : Tokens) (none_ : inner.branches = []) : nest outer inner = [] := by
  have empty : (outer.branches.flatMap fun o => inner.branches.map (nestBranch o)) = [] := by simp [none_]
  rw [nest, empty, none_]
  exact ite_self _

/-- Below a selector with branches the numbers of branches multiply. -/
theorem length_foldl_nest {chain : List Tokens} (each : ∀ selector ∈ chain, selector.WellBracketed)
    (some_ : ∀ selector ∈ chain.dropLast, selector.branches ≠ []) (first : outer.WellBracketed)
    (filled : outer.branches ≠ []) : (chain.foldl nest outer).branches.length =
      outer.branches.length * chain.foldr (fun selector count => selector.branches.length * count) 1 := by
  induction chain generalizing outer with
  | nil => simp
  | cons inner rest ih =>
    obtain ⟨second, others⟩ := forall_mem_cons.mp each
    have count : (nest outer inner).branches.length = outer.branches.length * inner.branches.length := by
      rw [branches_nest first second, if_neg filled, length_product]
    rw [foldr_cons, ← Nat.mul_assoc, ← count, foldl_cons]
    cases rest with
    | nil => simp
    | cons next rest =>
      -- The nested selector has branches again, and is the outer one of the next.
      obtain ⟨here, behind⟩ := forall_mem_cons.mp some_
      refine ih others behind (wellBracketed_nest first second) fun none_ => ?_
      rw [none_] at count
      have := Nat.mul_pos (length_pos_iff.mpr filled) (length_pos_iff.mpr here)
      simp only [length_nil] at count
      omega

theorem length_nestAll {chain : List Tokens} (filled : chain ≠ []) (each : ∀ selector ∈ chain, selector.WellBracketed)
    (some_ : ∀ selector ∈ chain.dropLast, selector.branches ≠ []) :
    (nestAll chain).branches.length = chain.foldr (fun selector count => selector.branches.length * count) 1 := by
  obtain ⟨first, rest, rfl⟩ := exists_cons_of_ne_nil filled
  obtain ⟨outermost, others⟩ := forall_mem_cons.mp each
  have begins : (nest [] first).branches = first.branches := by
    rw [branches_nest (by decide) outermost]
    rfl
  rw [nestAll, foldl_cons]
  cases rest with
  | nil => simp [begins]
  | cons second rest =>
    obtain ⟨here, behind⟩ := forall_mem_cons.mp some_
    rw [length_foldl_nest others behind (wellBracketed_nest (by decide) outermost) (by rwa [begins]), begins]
    rfl

/-- Where brackets match, the branches of a nested selector are every outer branch with every
inner one, or the inner ones alone if there is no outer branch. Along a chain in which each
selector but the innermost one has branches, their numbers multiply; a selector without
branches counts for nothing, and the chain begins anew behind it. -/
theorem nested_branches_multiply (outer inner : Tokens) (first : outer.WellBracketed) (second : inner.WellBracketed) :
    (nest outer inner).branches = (if outer.branches = [] then inner.branches else
      outer.branches.flatMap fun o => inner.branches.map fun i =>
        if i.any isParentMark then i.flatMap fun token => if isParentMark token then o else [token]
        else o ++ Token.space :: i) ∧
    (∀ chain : List Tokens, chain ≠ [] → (∀ selector ∈ chain, selector.WellBracketed) →
      (∀ selector ∈ chain.dropLast, selector.branches ≠ []) →
      (nestAll chain).branches.length = chain.foldr (fun selector count => selector.branches.length * count) 1) ∧
    ∀ (before : List Tokens) (selector : Tokens) (after : List Tokens), selector.branches = [] →
      nestAll (before ++ selector :: after) = nestAll after := by
  refine ⟨branches_nest first second, fun _ => length_nestAll, fun before selector after none_ => ?_⟩
  rw [nestAll, foldl_append, foldl_cons, nest_of_nil _ none_]
  rfl

def ofSource (text : String) : Tokens := (Scan.ofText "in" text).tokens

theorem nested_branches_in_parentheses :
    (nest (ofSource ".a, .b:is(.c, .d)") (ofSource "&:not(.x, &) , .e")).branches.map Tokens.text =
      [".a:not(.x, .a)", ".a .e", ".b:is(.c, .d):not(.x, .b:is(.c, .d))", ".b:is(.c, .d) .e"] ∧
    (nestAll [ofSource ".a, .b:is(.c, .d)", ofSource "&:not(.x, &) , .e", ofSource "[p], &, > .q"]).branches.length =
      12 := by
  obtain ⟨nested, chained, _⟩ := nested_branches_multiply (ofSource ".a, .b:is(.c, .d)") (ofSource "&:not(.x, &) , .e")
    (by decide +kernel) (by decide +kernel)
  constructor
  · rw [nested]
    decide +kernel
  · rw [chained _ (by simp) (by decide +kernel) (by decide +kernel)]
    decide +kernel

/-- Below a selector without branches the numbers do not multiply. -/
theorem nested_below_no_branch :
    (¬ ∀ chain : List Tokens, chain ≠ [] → (∀ selector ∈ chain, selector.WellBracketed) →
      (nestAll chain).branches.length = chain.foldr (fun selector count => selector.branches.length * count) 1) ∧
    (compile ⟨false, none⟩ ", \x7b .a \x7b x: y \x7d \x7d").outcome.1.toOption =
      some ".a \x7b\n  x: y;\n\x7d" := by
  refine ⟨fun multiply => ?_, by decide +kernel⟩
  have one := multiply [ofSource ",", ofSource ".a"] (by simp) (by decide +kernel)
  revert one
  decide +kernel

end Selector

end LessCss
