import LessCss.Proofs.Extension.Closure
import LessCss.Proofs.Token.Brackets

/-! What propagation leaves alone. Main statement: where brackets match, with or without
`all`, the style sheet stays as it is but for the selectors of its rules, and to these only
branches are added, behind their own ones and without repetition. -/

set_option autoImplicit false

namespace LessCss

open List

/-- The same nodes in the same order, with the same names, parameters and declarations.
Only the selectors of rules may differ, as the relation says. -/
inductive Css.Reselected (related : Tokens → Tokens → Prop) : Stylesheet → Stylesheet → Prop where
  | nil : Reselected related [] []
  | rule {selector selector' : Tokens} (declarations : List Declaration) {rest rest' : Stylesheet}
      (changed : related selector selector') (others : Reselected related rest rest') :
      Reselected related (.rule selector declarations :: rest) (.rule selector' declarations :: rest')
  | statement (name : String) (params : Tokens) {rest rest' : Stylesheet} (others : Reselected related rest rest') :
      Reselected related (.statement name params :: rest) (.statement name params :: rest')
  | block (name : String) (params : Tokens) (declarations : List Declaration) {children children' rest rest' : Stylesheet}
      (inner : Reselected related children children') (others : Reselected related rest rest') :
      Reselected related (.block name params declarations children :: rest)
        (.block name params declarations children' :: rest')

theorem Css.reselected_mapSelectors {related : Tokens → Tokens → Prop} {change : Tokens → Tokens} {nodes : Stylesheet}
    (each : ∀ selector ∈ selectors nodes, related selector (change selector)) :
    Reselected related nodes (mapSelectors change nodes) := by
  fun_induction mapSelectors change nodes with
  | case1 => exact .nil
  | case2 selector declarations rest ih =>
    rw [selectors, forall_mem_cons] at each
    exact .rule declarations each.1 (ih each.2)
  | case3 name params rest ih =>
    rw [selectors] at each
    exact .statement name params (ih each)
  | case4 name params declarations children rest inner ih =>
    rw [selectors, forall_mem_append] at each
    exact .block name params declarations (inner each.1) (ih each.2)

/-! ### Runs that fit a target -/

namespace Tokens

variable {run own : Tokens}

theorem kind_of_agrees {a b : Token} (agrees : a.agrees b = true) :
    a.kind.closes = b.kind.closes ∧ ∀ depth, a.kind.depthAfter depth = b.kind.depthAfter depth := by
  unfold Token.agrees Token.same at agrees
  rw [Bool.or_eq_true, Bool.and_eq_true, Bool.and_eq_true, beq_iff_eq] at agrees
  rcases agrees with ⟨first, second⟩ | ⟨same, _⟩
  · obtain ⟨opens, closes⟩ := kind_of_blank first
    obtain ⟨opens', closes'⟩ := kind_of_blank second
    exact ⟨closes.trans closes'.symm, fun depth => by simp [Kind.depthAfter, opens, closes, opens', closes']⟩
  · exact ⟨by rw [same], fun depth => by rw [same]⟩

theorem covered_of_fits {depth : Nat} (fits : run.fits own = true) (covered : Covered depth run) :
    Covered depth own ∧ depthAfter depth own = depthAfter depth run := by
  induction run generalizing own depth with
  | nil =>
    cases own with
    | nil => exact ⟨trivial, rfl⟩
    | cons token rest => simp [Tokens.fits] at fits
  | cons first run ih =>
    cases own with
    | nil => simp [Tokens.fits] at fits
    | cons token rest =>
      rw [fits_cons, Bool.and_eq_true] at fits
      obtain ⟨closes, level⟩ := kind_of_agrees fits.1
      obtain ⟨inside, ends⟩ := ih fits.2 covered.2
      refine ⟨⟨fun closing => covered.1 (closes ▸ closing), ?_⟩, ?_⟩
      · rw [level]
        exact inside
      · change depthAfter (token.kind.depthAfter depth) rest = depthAfter (first.kind.depthAfter depth) run
        rw [level]
        exact ends

theorem bracketed_of_fits (fits : run.fits own = true) (bracketed : Bracketed run) : Bracketed own := by
  obtain ⟨covered, level⟩ := covered_of_fits fits bracketed.covered
  exact ⟨covered, level.trans bracketed.closed⟩

theorem exists_of_startsWith {tokens : Tokens} (starts : run.startsWith tokens = true) :
    ∃ own, tokens = own ++ tokens.drop run.length ∧ run.fits own = true := by
  induction run generalizing tokens with
  | nil => exact ⟨[], by simp, rfl⟩
  | cons first run ih =>
    cases tokens with
    | nil => cases starts
    | cons token rest =>
      rw [startsWith, Bool.and_eq_true] at starts
      obtain ⟨own, same, fits⟩ := ih starts.2
      refine ⟨token :: own, ?_, by rw [fits_cons, starts.1, fits, Bool.and_self]⟩
      rw [length_cons, drop_succ_cons, cons_append, ← same]

end Tokens

namespace Extension

open Tokens

variable {extensions : List Extension} {extension : Extension} {selector : Tokens}

theorem spliced_runsReplaced {target added : Tokens} (filled : target ≠ []) (bracketed : Bracketed target)
    (whole : IsBranch added) (tokens : Tokens) : Spliced tokens (runsReplaced target added tokens) := by
  fun_induction runsReplaced target added tokens with
  | case1 => exact .nil
  | case2 token rest starts ih =>
    obtain ⟨own, same, fits⟩ := exists_of_startsWith starts
    have dropped : (token :: rest).drop target.length = rest.drop (target.length - 1) := by
      obtain ⟨first, others, rfl⟩ := exists_cons_of_ne_nil filled
      rfl
    rw [same, dropped]
    exact .replace (bracketed_of_fits fits bracketed) whole ih
  | case3 token rest _ ih => exact .keep token ih

/-! ### One directive -/

structure Balanced (extension : Extension) : Prop where
  target : extension.target.Bracketed
  selector : extension.selector.Bracketed

instance : DecidablePred Balanced := fun extension =>
  decidable_of_iff (extension.target.Bracketed ∧ extension.selector.Bracketed)
    ⟨fun both => ⟨both.1, both.2⟩, fun both => ⟨both.target, both.selector⟩⟩

/-- Whatever a directive gives rise to is a branch again, also where runs are replaced. -/
theorem isBranch_of_mem_apply (balanced : extension.Balanced) (bracketed : selector.Bracketed) {branch : Tokens}
    (member : branch ∈ extension.apply selector) : IsBranch branch := by
  rw [apply] at member
  split at member
  · cases member
  rename_i filled
  obtain ⟨own, inside, given⟩ := mem_flatMap.mp member
  rw [applyBranch_eq (mt List.isEmpty_iff.mpr filled)] at given
  -- With `all` runs of the branch are replaced, otherwise the branches of the directive are added.
  split at given
  · split at given
    · cases given
    · obtain ⟨added, addedIn, rfl⟩ := mem_map.mp given
      exact (spliced_runsReplaced (mt List.isEmpty_iff.mpr filled) balanced.target
        (isBranch_of_mem_branches balanced.selector addedIn) own).isBranch (isBranch_of_mem_branches bracketed inside)
  · split at given
    · exact isBranch_of_mem_branches balanced.selector given
    · cases given

theorem nodup_freshBranches (seen : List String) (list : List Tokens) :
    ((freshBranches seen list).map Tokens.normalized).Nodup ∧
      ∀ branch ∈ freshBranches seen list, branch.normalized ∉ seen := by
  fun_induction freshBranches seen list with
  | case1 => exact ⟨nodup_nil, forall_mem_nil _⟩
  | case2 seen branch rest _ ih => exact ih
  | case3 seen branch rest unknown ih =>
    obtain ⟨distinct, unseen⟩ := ih
    refine ⟨?_, forall_mem_cons.mpr ⟨mt contains_iff_mem.mpr unknown, fun other inside known => ?_⟩⟩
    · rw [map_cons, nodup_cons]
      refine ⟨fun again => ?_, distinct⟩
      obtain ⟨other, inside, same⟩ := mem_map.mp again
      exact unseen other inside (same ▸ mem_cons_self)
    · exact unseen other inside (mem_cons_of_mem _ known)

/-- Only branches are added: behind those of the selector, with new texts, and each text once. -/
def OnlyAdds (selector after : Tokens) : Prop :=
  ∃ added, after.branches = selector.branches ++ added ∧ (added.map Tokens.normalized).Nodup ∧
    ∀ branch ∈ added, branch.normalized ∉ selector.branches.map Tokens.normalized

namespace OnlyAdds

theorem refl (selector : Tokens) : OnlyAdds selector selector :=
  ⟨[], (append_nil _).symm, nodup_nil, forall_mem_nil _⟩

theorem trans {between after : Tokens} (first : OnlyAdds selector between) (second : OnlyAdds between after) :
    OnlyAdds selector after := by
  obtain ⟨added, same, distinct, unseen⟩ := first
  obtain ⟨added', same', distinct', unseen'⟩ := second
  rw [same] at same' unseen'
  simp only [map_append, mem_append, not_or] at unseen'
  refine ⟨added ++ added', by rw [same', List.append_assoc], ?_, ?_⟩
  · -- What the second step adds is new to all that was there, what the first one added included.
    rw [map_append, nodup_append]
    refine ⟨distinct, distinct', fun text old other new same => ?_⟩
    obtain ⟨branch, inside, rfl⟩ := mem_map.mp new
    exact (unseen' branch inside).2 (same ▸ old)
  · exact forall_mem_append.mpr ⟨unseen, fun branch inside => (unseen' branch inside).1⟩

end OnlyAdds

/-- A directive only adds branches, and brackets match as before. -/
theorem onlyAdds_extend (balanced : extension.Balanced) (bracketed : selector.Bracketed) :
    (extension.extend selector).Bracketed ∧ OnlyAdds selector (extension.extend selector) := by
  have own (branch : Tokens) (member : branch ∈ selector.branches) := isBranch_of_mem_branches bracketed member
  have given (branch : Tokens) (member : branch ∈ extension.apply selector) :=
    isBranch_of_mem_apply balanced bracketed member
  obtain ⟨distinct, unseen⟩ := nodup_freshBranches (texts selector) (extension.apply selector)
  refine ⟨?_, _, branches_extend_of_apply (fun branch member => (own branch member).toIsPart)
    (fun branch member => (given branch member).toIsPart), distinct, unseen⟩
  rw [extend, extend?]
  split
  · exact bracketed
  · refine .joinBranches fun branch member => ?_
    rcases mem_append.mp member with inside | inside
    · exact (own branch inside).bracketed
    · exact (given branch (mem_freshBranches inside)).bracketed

/-! ### All passes -/

theorem onlyAdds_iterate (balanced : ∀ extension ∈ extensions, extension.Balanced) (bracketed : selector.Bracketed)
    (number : Nat) : OnlyAdds selector ((extendAll extensions)^[number] selector) := by
  refine (iterate_induction (motive := fun after => after.Bracketed ∧ OnlyAdds selector after)
    (fun extension member between here => ?_) ⟨bracketed, .refl selector⟩ number).2
  obtain ⟨bracketed', more⟩ := onlyAdds_extend (balanced extension member) here.1
  exact ⟨bracketed', here.2.trans more⟩

/-- Propagation succeeds and leaves all but the selectors of rules alone. Where brackets match,
the branches of each selector stay where they are, and the branches added behind them have
texts that are new to the selector and differ from one another. -/
theorem propagate_only_adds (extensions : List Extension) (nodes : Css.Stylesheet)
    (rules : ∀ selector ∈ Css.selectors nodes, selector.Bracketed)
    (directives : ∀ extension ∈ extensions, extension.Balanced) :
    ∃ after, (propagate extensions nodes).outcome.1 = .ok after ∧ Css.Reselected OnlyAdds nodes after :=
  ⟨_, (gives_propagate extensions nodes).outcome,
    Css.reselected_mapSelectors fun selector member => onlyAdds_iterate directives (rules selector member) _⟩

def woven : List Extension :=
  [⟨tokensOf ".a", tokensOf ".b , .c:is(.d, .e)", true⟩, ⟨tokensOf ".b", tokensOf ".y", false⟩]

def wovenSheet : Css.Stylesheet :=
  [.statement "@charset" (tokensOf "\"utf-8\""), .rule (tokensOf ".a:not(.x, .a) , .y") [⟨"top", tokensOf "0", false⟩],
    .block "@media" (tokensOf "print") [] [.rule (tokensOf ".b,.a") []]]

theorem woven_only_adds :
    (propagate woven wovenSheet).outcome.1.map (fun nodes => (Css.selectors nodes).map texts) =
      .ok [[".a:not(.x, .a)", ".y", ".b:not(.x, .b)", ".c:is(.d, .e):not(.x, .c:is(.d, .e))"],
        [".b", ".a", ".c:is(.d, .e)", ".y"]] ∧
    ∃ after, (propagate woven wovenSheet).outcome.1 = .ok after ∧ Css.Reselected OnlyAdds wovenSheet after := by
  have rules : Css.selectors wovenSheet = [tokensOf ".a:not(.x, .a) , .y", tokensOf ".b,.a"] := by
    simp [wovenSheet, Css.selectors]
  constructor
  · rw [(gives_propagate woven wovenSheet).outcome, Except.map, Css.selectors_mapSelectors, rules]
    decide +kernel
  · exact propagate_only_adds woven wovenSheet (by rw [rules]; decide +kernel) (by decide +kernel)

end Extension

end LessCss
