import Mathlib.Order.Bounds.Basic
import LessCss.Proofs.Extension.Passes

/-! Directives without `all` are applied completely. Main statement: afterwards
the branches of each rule are, as texts, the least set that has the branches of
the rule before and is closed under the directives. So one pass for each
directive is enough, and the order of the directives does not matter for it.

The argument counts the directives whose targets fit a branch. A pass that does
not raise this number has left nothing to do; as there are no more directives
than passes, the last pass has left nothing to do. -/

set_option autoImplicit false

namespace LessCss.Extension

open List Css

variable {extensions : List Extension} {extension : Extension} {selector : Tokens}

/-- The directive fits whole branches only, and its own branches can be joined to others. -/
structure Regular (extension : Extension) : Prop where
  whole : extension.all = false
  parts : ∀ branch ∈ extension.selector.branches, branch.IsPart ","

/-! ### One directive -/

def Parted (selector : Tokens) : Prop := ∀ branch ∈ selector.branches, branch.IsPart ","

theorem branches_isPrefix_extend (regular : extension.Regular) (parted : Parted selector) :
    selector.branches <+: (extension.extend selector).branches := by
  rw [branches_extend parted regular.parts regular.whole]
  exact prefix_append _ _

theorem mem_branches_extend (regular : extension.Regular) (parted : Parted selector) {branch : Tokens}
    (member : branch ∈ (extension.extend selector).branches) : branch ∈ selector.branches ∨
      extension.Meets selector ∧ branch ∈ extension.selector.branches := by
  rw [branches_extend parted regular.parts regular.whole, mem_append] at member
  exact member.imp_right fun fresh => (mem_apply regular.whole).mp (mem_freshBranches fresh)

theorem parted_extend (regular : extension.Regular) (parted : Parted selector) :
    Parted (extension.extend selector) := by
  intro branch member
  rcases mem_branches_extend regular parted member with old | ⟨_, new⟩
  · exact parted branch old
  · exact regular.parts branch new

/-- A directive whose target fits leaves the texts of all its branches behind. -/
theorem added_of_meets (regular : extension.Regular) (parted : Parted selector)
    (meets : extension.Meets selector) {branch : Tokens}
    (member : branch ∈ extension.selector.branches) :
    branch.normalized ∈ texts (extension.extend selector) := by
  have added : branch ∈ extension.apply selector := (mem_apply regular.whole).mpr ⟨meets, member⟩
  rw [texts, branches_extend parted regular.parts regular.whole, map_append, mem_append]
  exact seen_or_fresh added

theorem Meets.mono {selector' : Tokens} (meets : extension.Meets selector)
    (more : selector.branches <+: selector'.branches) : extension.Meets selector' := by
  obtain ⟨branch, member, fits⟩ := meets
  exact ⟨branch, more.subset member, fits⟩

theorem texts_subset {selector' : Tokens} (more : selector.branches <+: selector'.branches) :
    texts selector ⊆ texts selector' :=
  (more.map Tokens.normalized).subset

structure Grown (selector after : Tokens) : Prop where
  parted : Parted after
  more : selector.branches <+: after.branches

/-! ### Passes -/

/-- What each directive keeps, a pass keeps. -/
theorem extendAll_induction {motive : Tokens → Prop}
    (step : ∀ extension ∈ extensions, ∀ selector, motive selector → motive (extension.extend selector))
    (start : motive selector) : motive (extendAll extensions selector) := by
  induction extensions generalizing selector with
  | nil => exact start
  | cons extension rest ih =>
    obtain ⟨first, others⟩ := forall_mem_cons.mp step
    exact ih others (first selector start)

/-- What each directive keeps, any number of passes keeps. -/
theorem iterate_induction {motive : Tokens → Prop}
    (step : ∀ extension ∈ extensions, ∀ selector, motive selector → motive (extension.extend selector))
    (start : motive selector) (number : Nat) : motive ((extendAll extensions)^[number] selector) := by
  induction number with
  | zero => exact start
  | succ number ih =>
    rw [Function.iterate_succ_apply']
    exact extendAll_induction step ih

theorem extendAll_append (earlier later : List Extension) (selector : Tokens) :
    extendAll (earlier ++ later) selector = extendAll later (extendAll earlier selector) :=
  foldl_append

section

variable (regular : ∀ extension ∈ extensions, extension.Regular)

include regular

theorem grown_iterate (parted : Parted selector) (number : Nat) :
    Grown selector ((extendAll extensions)^[number] selector) := by
  refine iterate_induction (fun extension member between here => ?_) ⟨parted, prefix_rfl⟩ number
  have own := regular extension member
  exact ⟨parted_extend own here.parted, here.more.trans (branches_isPrefix_extend own here.parted)⟩

theorem grown_extendAll (parted : Parted selector) : Grown selector (extendAll extensions selector) :=
  grown_iterate regular parted 1

end

/-- Each directive whose target fits has left the texts of its branches behind. -/
def Saturated (extensions : List Extension) (selector : Tokens) : Prop :=
  ∀ extension ∈ extensions, extension.Meets selector →
    ∀ branch ∈ extension.selector.branches, branch.normalized ∈ texts selector

theorem Saturated.extend?_eq_none (saturated : Saturated extensions selector)
    (member : extension ∈ extensions) (whole : extension.all = false) :
    extension.extend? selector = none :=
  Extension.extend?_eq_none whole (saturated extension member)

theorem Saturated.extendAll_eq_self (saturated : Saturated extensions selector)
    (regular : ∀ extension ∈ extensions, extension.Regular) :
    extendAll extensions selector = selector := by
  refine extendAll_induction (motive := (· = selector)) ?_ rfl
  rintro extension member _ rfl
  exact extend_eq_self (saturated.extend?_eq_none member (regular extension member).whole)

/-- A pass in which no further target has come to fit has left nothing to do. -/
theorem saturated_of_meets (regular : ∀ extension ∈ extensions, extension.Regular) (parted : Parted selector)
    (met : ∀ extension ∈ extensions, extension.Meets (extendAll extensions selector) →
      extension.Meets selector) : Saturated extensions (extendAll extensions selector) := by
  intro extension member meets branch inside
  -- The directive is applied between those before it and those after it.
  obtain ⟨earlier, later, rfl⟩ := append_of_mem member
  have before : ∀ extension ∈ earlier, extension.Regular :=
    fun extension member => regular extension (mem_append_left _ member)
  have after : ∀ extension ∈ later, extension.Regular :=
    fun extension member => regular extension (mem_append_right _ (.tail _ member))
  have own := regular extension member
  have grown := grown_extendAll before parted
  have added := added_of_meets own grown.parted ((met extension member meets).mono grown.more) inside
  rw [extendAll_append]
  exact texts_subset (grown_extendAll after (parted_extend own grown.parted)).more added

/-! ### The number of passes -/

instance : Decidable (extension.Meets selector) :=
  inferInstanceAs (Decidable (∃ branch ∈ selector.branches, extension.target.fits branch = true))

def meeting (extensions : List Extension) (selector : Tokens) : List Extension :=
  extensions.filter fun extension => extension.Meets selector

theorem length_meeting_le (extensions : List Extension) (selector : Tokens) :
    (meeting extensions selector).length ≤ extensions.length :=
  length_filter_le _ _

section

variable (regular : ∀ extension ∈ extensions, extension.Regular)

include regular

/-- After a pass that has left something to do, more targets fit than before it. -/
theorem length_meeting_lt (parted : Parted selector)
    (open_ : ¬Saturated extensions (extendAll extensions selector)) :
    (meeting extensions selector).length < (meeting extensions (extendAll extensions selector)).length := by
  have more := (grown_extendAll regular parted).more
  have newly : ∃ extension ∈ extensions, extension.Meets (extendAll extensions selector) ∧
      ¬extension.Meets selector := by
    refine Classical.byContradiction fun none_ => open_ (saturated_of_meets regular parted ?_)
    intro extension member meets
    refine Classical.byContradiction fun fails => none_ ⟨extension, member, meets, fails⟩
  obtain ⟨extension, member, meets, fails⟩ := newly
  have before : meeting extensions selector =
      (meeting extensions (extendAll extensions selector)).filter fun extension =>
        extension.Meets selector := by
    rw [meeting, meeting, filter_filter]
    refine filter_congr fun extension _ => ?_
    rw [Bool.eq_iff_iff, Bool.and_eq_true, decide_eq_true_iff, decide_eq_true_iff]
    exact ⟨fun meets => ⟨meets, meets.mono more⟩, fun both => both.1⟩
  rw [before, length_filter_lt_length_iff_exists]
  exact ⟨extension, mem_filter.mpr ⟨member, decide_eq_true meets⟩, by simpa using fails⟩

/-- As long as passes leave something to do, each of them lets a further target fit. -/
theorem lt_length_meeting (parted : Parted selector) (number : Nat)
    (open_ : ¬Saturated extensions ((extendAll extensions)^[number] selector)) :
    number < (meeting extensions ((extendAll extensions)^[number] selector)).length := by
  induction number with
  | zero =>
    have some_ : ∃ extension ∈ extensions, extension.Meets selector := by
      refine Classical.byContradiction fun none_ => open_ fun extension member meets => ?_
      exact absurd ⟨extension, member, meets⟩ none_
    obtain ⟨extension, member, meets⟩ := some_
    exact length_pos_of_mem (mem_filter.mpr ⟨member, decide_eq_true meets⟩)
  | succ number ih =>
    rw [Function.iterate_succ_apply'] at open_ ⊢
    have earlier : ¬Saturated extensions ((extendAll extensions)^[number] selector) := by
      intro saturated
      rw [saturated.extendAll_eq_self regular] at open_
      exact open_ saturated
    have grown := length_meeting_lt regular (grown_iterate regular parted number).parted open_
    have := ih earlier
    omega

/-- One pass for each directive is enough. -/
theorem saturated_iterate (parted : Parted selector) :
    Saturated extensions ((extendAll extensions)^[extensions.length] selector) := by
  refine Classical.byContradiction fun open_ => ?_
  have many := lt_length_meeting regular parted extensions.length open_
  exact absurd (length_meeting_le extensions _) (Nat.not_le.mpr many)

end

/-! ### Least sets of texts -/

def occurring (extensions : List Extension) (nodes : Css.Stylesheet) : List Tokens :=
  (selectors nodes ++ extensions.map Extension.selector).flatMap Tokens.branches

/-- The set has the texts that a directive adds, if it has the text of a branch
that the target of the directive fits. -/
def ClosedUnder (extensions : List Extension) (branches : List Tokens) (texts : Set String) : Prop :=
  ∀ extension ∈ extensions, ∀ branch ∈ branches, extension.target.fits branch = true →
    branch.normalized ∈ texts → ∀ added ∈ extension.selector.branches, added.normalized ∈ texts

def closures (extensions : List Extension) (branches : List Tokens) (selector : Tokens) : Set (Set String) :=
  { set | (∀ branch ∈ selector.branches, branch.normalized ∈ set) ∧ ClosedUnder extensions branches set }

def Drawn (branches : List Tokens) (selector : Tokens) : Prop :=
  Parted selector ∧ ∀ branch ∈ selector.branches, branch ∈ branches

/-- Passes add nothing that is not in every closed set. -/
theorem texts_iterate_subset {branches : List Tokens} {set : Set String}
    (regular : ∀ extension ∈ extensions, extension.Regular)
    (known : ∀ extension ∈ extensions, ∀ branch ∈ extension.selector.branches, branch ∈ branches)
    (closed : ClosedUnder extensions branches set) (drawn : Drawn branches selector)
    (within : ∀ branch ∈ selector.branches, branch.normalized ∈ set) (number : Nat) :
    Drawn branches ((extendAll extensions)^[number] selector) ∧
      ∀ branch ∈ ((extendAll extensions)^[number] selector).branches, branch.normalized ∈ set := by
  refine iterate_induction (motive := fun after => Drawn branches after ∧
    ∀ branch ∈ after.branches, branch.normalized ∈ set) ?_ ⟨drawn, within⟩ number
  rintro extension member selector ⟨⟨parted, inside⟩, within⟩
  have own := regular extension member
  refine ⟨⟨parted_extend own parted, fun branch branchIn => ?_⟩, fun branch branchIn => ?_⟩
  · rcases mem_branches_extend own parted branchIn with old | ⟨_, new⟩
    · exact inside branch old
    · exact known extension member branch new
  · rcases mem_branches_extend own parted branchIn with old | ⟨⟨met, metIn, fits⟩, new⟩
    · exact within branch old
    · exact closed extension member met (inside met metIn) fits (within met metIn) branch new

/-- What all passes leave is the least closed set. -/
theorem isLeast_iterate {branches : List Tokens} (regular : ∀ extension ∈ extensions, extension.Regular)
    (known : ∀ extension ∈ extensions, ∀ branch ∈ extension.selector.branches, branch ∈ branches)
    (consistent : ∀ a ∈ branches, ∀ b ∈ branches, a.normalized = b.normalized → a.fits b = true)
    (drawn : Drawn branches selector) :
    IsLeast (closures extensions branches selector)
      { text | text ∈ texts ((extendAll extensions)^[extensions.length] selector) } := by
  have saturated := saturated_iterate regular drawn.1
  have everything : ClosedUnder extensions branches Set.univ := fun _ _ _ _ _ _ _ _ => trivial
  have inside := (texts_iterate_subset regular known everything drawn (fun _ _ => trivial)
    extensions.length).1
  refine ⟨⟨fun branch member => ?_, ?_⟩, ?_⟩
  · have more := (grown_iterate regular drawn.1 extensions.length).more
    exact texts_subset more (mem_map_of_mem member)
  · intro extension member branch occurs fits text added addedIn
    obtain ⟨own, ownIn, same⟩ := mem_map.mp text
    have fits' := Tokens.fits_trans fits (consistent branch occurs own (inside.2 own ownIn) same.symm)
    exact saturated extension member ⟨own, ownIn, fits'⟩ added addedIn
  · rintro set ⟨within, closed⟩ text member
    obtain ⟨branch, branchIn, rfl⟩ := mem_map.mp member
    exact (texts_iterate_subset regular known closed drawn within _).2 branch branchIn

theorem closures_of_perm {permuted : List Extension} (perm : permuted.Perm extensions)
    (branches : List Tokens) (selector : Tokens) :
    closures permuted branches selector = closures extensions branches selector := by
  simp only [closures, ClosedUnder, perm.mem_iff]

/-- Propagation succeeds and changes the selector of each rule by itself. If no
directive has `all`, all brackets that open are closed, and branches with one
text agree token by token, then the texts of each rule are the least set that has
the branches of the rule and is closed under the directives. Another pass would
change nothing, and any order of the directives gives the same texts. -/
theorem propagate_isLeast (extensions : List Extension) (nodes : Css.Stylesheet)
    (whole : ∀ extension ∈ extensions, extension.all = false)
    (closed : ∀ selector ∈ selectors nodes ++ extensions.map Extension.selector, selector.Closed)
    (consistent : ∀ a ∈ occurring extensions nodes, ∀ b ∈ occurring extensions nodes,
      a.normalized = b.normalized → a.fits b = true) :
    ∃ change : Tokens → Tokens,
      (propagate extensions nodes).outcome.1 = .ok (mapSelectors change nodes) ∧
      (∀ selector ∈ selectors nodes,
        IsLeast (closures extensions (occurring extensions nodes) selector)
          { text | text ∈ texts (change selector) }) ∧
      (pass extensions (mapSelectors change nodes)).outcome.1 =
        .ok (mapSelectors change nodes, false) ∧
      ∀ permuted : List Extension, permuted.Perm extensions → ∃ change' : Tokens → Tokens,
        (propagate permuted nodes).outcome.1 = .ok (mapSelectors change' nodes) ∧
        ∀ selector ∈ selectors nodes, ∀ text,
          text ∈ texts (change' selector) ↔ text ∈ texts (change selector) := by
  have regular (extension : Extension) (member : extension ∈ extensions) : extension.Regular :=
    ⟨whole extension member, fun _ => Tokens.isPart_of_mem_branches
      (closed _ (mem_append_right _ (mem_map_of_mem member)))⟩
  have known (extension : Extension) (member : extension ∈ extensions) (branch : Tokens)
      (inside : branch ∈ extension.selector.branches) : branch ∈ occurring extensions nodes :=
    mem_flatMap.mpr ⟨_, mem_append_right _ (mem_map_of_mem member), inside⟩
  have drawn (selector : Tokens) (member : selector ∈ selectors nodes) :
      Drawn (occurring extensions nodes) selector :=
    ⟨fun _ => Tokens.isPart_of_mem_branches (closed selector (mem_append_left _ member)),
      fun branch inside => mem_flatMap.mpr ⟨selector, mem_append_left _ member, inside⟩⟩
  have least (selector : Tokens) (member : selector ∈ selectors nodes) :=
    isLeast_iterate regular known consistent (drawn selector member)
  refine ⟨_, (gives_propagate extensions nodes).outcome, least, ?_, ?_⟩
  · refine (gives_pass_of_fixed fun selector member extension inside => ?_).outcome
    rw [selectors_mapSelectors] at member
    obtain ⟨before, beforeIn, rfl⟩ := mem_map.mp member
    have saturated := saturated_iterate regular (drawn before beforeIn).1
    exact saturated.extend?_eq_none inside (whole extension inside)
  · intro permuted perm
    refine ⟨_, (gives_propagate permuted nodes).outcome, fun selector member text => ?_⟩
    have least' := isLeast_iterate (fun extension inside => regular extension (perm.mem_iff.mp inside))
      (fun extension inside => known extension (perm.mem_iff.mp inside)) consistent (drawn selector member)
    rw [closures_of_perm perm] at least'
    exact Set.ext_iff.mp (least'.unique (least selector member)) text

def tokensOf (text : String) : Tokens := (Scan.ofText "in" text).tokens

def chain : List Extension :=
  [⟨tokensOf ".c", tokensOf ".d , .a", false⟩, ⟨tokensOf ".b", tokensOf ".c:not(.x, .y)", false⟩,
    ⟨tokensOf ".b", tokensOf ".c", false⟩, ⟨tokensOf ".a", tokensOf ".b", false⟩]

def chained : Css.Stylesheet :=
  [.rule (tokensOf ".a") [], .block "@media" [] [] [.rule (tokensOf ".e,.c") []]]

theorem selectors_chained : selectors chained = [tokensOf ".a", tokensOf ".e,.c"] := by
  simp [chained, selectors]

theorem chain_isLeast :
    (propagate chain chained).outcome.1.map (fun nodes => (selectors nodes).map texts) =
        .ok [[".a", ".b", ".c:not(.x, .y)", ".c", ".d"],
          [".e", ".c", ".d", ".a", ".b", ".c:not(.x, .y)"]] ∧
      ∃ change : Tokens → Tokens,
        (propagate chain chained).outcome.1 = .ok (mapSelectors change chained) ∧
        ∀ selector ∈ [tokensOf ".a", tokensOf ".e,.c"],
          IsLeast (closures chain (occurring chain chained) selector)
            { text | text ∈ texts (change selector) } := by
  constructor
  · rw [(gives_propagate chain chained).outcome, Except.map, selectors_mapSelectors, selectors_chained]
    decide +kernel
  · obtain ⟨change, ends, least, _⟩ := propagate_isLeast chain chained (by decide +kernel)
      (by rw [selectors_chained]; decide +kernel)
      (by rw [occurring, selectors_chained]; decide +kernel)
    rw [selectors_chained] at least
    exact ⟨change, ends, least⟩

end LessCss.Extension
