import Mathlib.Logic.Function.Iterate
import LessCss.Proofs.Extension.Replacement
import LessCss.Proofs.Token.Branches

/-! Passes of directives over the selectors of a style sheet. A pass changes each
selector by itself, and stopping early at a pass without a change is no
different from making all passes. Without `all`, a directive adds the branches
of its selector to a selector that has a branch which the target fits. -/

set_option autoImplicit false

namespace LessCss

open List Css

/-! ### Selectors of style sheets -/

namespace Css

variable {change change' : Tokens → Tokens}

theorem selectors_mapSelectors (change : Tokens → Tokens) (nodes : Stylesheet) :
    selectors (mapSelectors change nodes) = (selectors nodes).map change := by
  fun_induction mapSelectors change nodes with
  | case1 => simp [selectors]
  | case2 selector declarations rest ih => simp [selectors, ih]
  | case3 name params rest ih => simpa [selectors] using ih
  | case4 name params declarations children rest ih ih' => simp [selectors, ih, ih']

theorem mapSelectors_congr {nodes : Stylesheet}
    (same : ∀ selector ∈ selectors nodes, change selector = change' selector) :
    mapSelectors change nodes = mapSelectors change' nodes := by
  fun_induction selectors nodes with
  | case1 => simp [mapSelectors]
  | case2 rest selector declarations ih => simp_all [mapSelectors]
  | case3 rest name params ih => simp_all [mapSelectors]
  | case4 rest name params declarations children ih ih' => simp_all [mapSelectors]

theorem mapSelectors_id (nodes : Stylesheet) : mapSelectors id nodes = nodes := by
  fun_induction selectors nodes with
  | case1 => simp [mapSelectors]
  | case2 => simp_all [mapSelectors]
  | case3 => simp_all [mapSelectors]
  | case4 => simp_all [mapSelectors]

theorem mapSelectors_mapSelectors (nodes : Stylesheet) :
    mapSelectors change (mapSelectors change' nodes) = mapSelectors (change ∘ change') nodes := by
  fun_induction selectors nodes with
  | case1 => simp [mapSelectors]
  | case2 => simp_all [mapSelectors]
  | case3 => simp_all [mapSelectors]
  | case4 => simp_all [mapSelectors]

theorem mapSelectors_eq_self {nodes : Stylesheet}
    (same : ∀ selector ∈ selectors nodes, change selector = selector) :
    mapSelectors change nodes = nodes :=
  (mapSelectors_congr same).trans (mapSelectors_id nodes)

end Css

/-! ### Fitting runs of tokens -/

theorem Token.agrees_trans {a b c : Token} (first : a.agrees b = true) (second : b.agrees c = true) :
    a.agrees c = true := by
  unfold agrees same isBlank at *
  grind

namespace Tokens

def fits (run tokens : Tokens) : Bool := tokens.length = run.length && run.startsWith tokens

theorem fits_cons {first token : Token} {run tokens : Tokens} :
    fits (first :: run) (token :: tokens) = (token.agrees first && fits run tokens) := by
  simp [fits, startsWith, Bool.and_left_comm]

theorem fits_trans {a b c : Tokens} (first : a.fits b = true) (second : b.fits c = true) : a.fits c = true := by
  induction a generalizing b c with
  | nil =>
    cases b with
    | nil => exact second
    | cons token rest => simp [fits] at first
  | cons token rest ih =>
    cases b with
    | nil => simp [fits] at first
    | cons token' rest' =>
      cases c with
      | nil => simp [fits] at second
      | cons token'' rest'' =>
        rw [fits_cons, Bool.and_eq_true] at first second ⊢
        exact ⟨Token.agrees_trans second.1 first.1, ih first.2 second.2⟩

theorem ne_nil_of_mem_parts {separator : String} {tokens part : Tokens}
    (member : part ∈ parts separator tokens) : part ≠ [] := by
  simpa using (mem_filter.mp member).2

end Tokens

/-! ### Computations that only log -/

namespace Logged

variable {α β : Type}

def Gives (action : Logged α) (value : α) : Prop :=
  ∀ log, ∃ log', action.run log = .ok value log'

theorem gives_pure (value : α) : Gives (pure value) value := fun log => ⟨log, rfl⟩

theorem gives_report (level : Level) (message : String) : Gives (report level message) () :=
  fun _ => ⟨_, rfl⟩

theorem Gives.bind {action : Logged α} {next : α → Logged β} {value : α} {result : β}
    (first : Gives action value) (rest : Gives (next value) result) : Gives (action >>= next) result := by
  intro log
  obtain ⟨between, ran⟩ := first log
  obtain ⟨after, ran'⟩ := rest between
  refine ⟨after, ?_⟩
  change EStateM.bind action next log = _
  rw [EStateM.bind, show action log = _ from ran]
  exact ran'

theorem Gives.outcome {action : Logged α} {value : α} (gives : Gives action value) :
    action.outcome.1 = .ok value := by
  obtain ⟨log, ran⟩ := gives []
  rw [Logged.outcome, ran]

theorem gives_forIn (list : List α) (action : α → Logged Unit) (each : ∀ x, Gives (action x) ()) :
    Gives (forIn list PUnit.unit fun x _ => do action x; return .yield PUnit.unit) PUnit.unit := by
  induction list with
  | nil => exact gives_pure _
  | cons first rest ih =>
    rw [forIn_cons]
    have one : Gives (do action first; return ForInStep.yield PUnit.unit) (.yield PUnit.unit) :=
      (each first).bind (gives_pure _)
    exact one.bind ih

end Logged

namespace Extension

/-! ### Passes -/

def extendAll (extensions : List Extension) (selector : Tokens) : Tokens :=
  extensions.foldl (fun selector extension => extension.extend selector) selector

theorem extend_eq_self {extension : Extension} {selector : Tokens}
    (none_ : extension.extend? selector = none) : extension.extend selector = selector := by
  rw [extend, none_]
  rfl

theorem gives_step (extension : Extension) (nodes : Css.Stylesheet) :
    Logged.Gives (extension.step nodes) (mapSelectors extension.extend nodes,
      (selectors nodes).any fun selector => (extension.extend? selector).isSome) := by
  unfold step
  refine (Logged.gives_forIn _ _ fun _ => Logged.gives_report _ _).bind ?_
  have flag : (!((selectors nodes).filter fun selector =>
      (extension.extend? selector).isSome).isEmpty) =
      (selectors nodes).any fun selector => (extension.extend? selector).isSome := by
    rw [Bool.eq_iff_iff]
    simp [Option.isSome_iff_ne_none]
  rw [← flag]
  exact Logged.gives_pure _

/-- A pass changes each selector by itself. If it tells of no change, there is none. -/
theorem gives_pass (extensions : List Extension) (nodes : Css.Stylesheet) :
    ∃ changed, Logged.Gives (pass extensions nodes)
        (mapSelectors (extendAll extensions) nodes, changed) ∧
      (changed = false → ∀ selector ∈ selectors nodes, extendAll extensions selector = selector) := by
  induction extensions generalizing nodes with
  | nil =>
    refine ⟨false, ?_, fun _ _ _ => rfl⟩
    have same : mapSelectors (extendAll []) nodes = nodes := mapSelectors_id nodes
    rw [same]
    exact Logged.gives_pure _
  | cons extension rest ih =>
    obtain ⟨changed, gives, none_⟩ := ih (mapSelectors extension.extend nodes)
    rw [mapSelectors_mapSelectors] at gives
    refine ⟨_, (gives_step extension nodes).bind (gives.bind (Logged.gives_pure _)), ?_⟩
    intro flag selector member
    rw [Bool.or_eq_false_iff, any_eq_false] at flag
    have kept : extension.extend selector = selector :=
      extend_eq_self (Option.not_isSome_iff_eq_none.mp (flag.1 selector member))
    have inside : selector ∈ selectors (mapSelectors extension.extend nodes) := by
      rw [selectors_mapSelectors, ← kept]
      exact mem_map_of_mem member
    rw [extendAll, foldl_cons, kept]
    exact none_ flag.2 selector inside

/-- A pass tells of no change if no directive changes a selector. -/
theorem gives_pass_of_fixed {extensions : List Extension} {nodes : Css.Stylesheet}
    (fixed : ∀ selector ∈ selectors nodes, ∀ extension ∈ extensions,
      extension.extend? selector = none) : Logged.Gives (pass extensions nodes) (nodes, false) := by
  induction extensions with
  | nil => exact Logged.gives_pure _
  | cons extension rest ih =>
    have first (selector : Tokens) (member : selector ∈ selectors nodes) :=
      fixed selector member extension mem_cons_self
    have step := gives_step extension nodes
    rw [mapSelectors_eq_self fun selector member => extend_eq_self (first selector member)] at step
    have same : ((selectors nodes).any fun selector => (extension.extend? selector).isSome) = false :=
      any_eq_false.mpr fun selector member => by simp [first selector member]
    rw [same] at step
    have others := ih fun selector member extension inside =>
      fixed selector member extension (.tail _ inside)
    exact step.bind (others.bind (Logged.gives_pure _))

/-- Stopping at a pass without a change gives what all passes together would have given. -/
theorem gives_repeatPass (extensions : List Extension) (number limit : Nat) (nodes : Css.Stylesheet) :
    Logged.Gives (repeatPass extensions number limit nodes)
      (mapSelectors (extendAll extensions)^[limit] nodes) := by
  induction limit generalizing number nodes with
  | zero =>
    rw [Function.iterate_zero, mapSelectors_id]
    exact Logged.gives_pure nodes
  | succ limit ih =>
    obtain ⟨changed, gives, none_⟩ := gives_pass extensions nodes
    refine gives.bind ?_
    rw [Function.iterate_succ, ← mapSelectors_mapSelectors]
    cases changed with
    | true => exact ih (number + 1) (mapSelectors (extendAll extensions) nodes)
    | false =>
      have fixed : ∀ selector ∈ selectors (mapSelectors (extendAll extensions) nodes),
          (extendAll extensions)^[limit] selector = selector := by
        rw [mapSelectors_eq_self (none_ rfl)]
        exact fun selector member => Function.iterate_fixed (none_ rfl selector member) limit
      rw [mapSelectors_eq_self fixed]
      exact (Logged.gives_report _ _).bind (Logged.gives_pure _)

theorem gives_propagate (extensions : List Extension) (nodes : Css.Stylesheet) :
    Logged.Gives (propagate extensions nodes)
      (mapSelectors (extendAll extensions)^[extensions.length] nodes) :=
  gives_repeatPass extensions 1 extensions.length nodes

/-! ### Directives without `all` -/

def Meets (extension : Extension) (selector : Tokens) : Prop :=
  ∃ branch ∈ selector.branches, extension.target.fits branch = true

def texts (selector : Tokens) : List String := selector.branches.map Tokens.normalized

theorem mem_freshBranches {seen : List String} {list : List Tokens} {branch : Tokens}
    (member : branch ∈ freshBranches seen list) : branch ∈ list := by
  fun_induction freshBranches seen list with
  | case1 => exact member
  | case2 seen branch' rest _ ih => exact mem_cons_of_mem _ (ih member)
  | case3 seen branch' rest _ ih =>
    rcases mem_cons.mp member with rfl | inside
    · exact mem_cons_self
    · exact mem_cons_of_mem _ (ih inside)

/-- Each text is seen before or stays with one of the branches. -/
theorem seen_or_fresh {seen : List String} {list : List Tokens} {branch : Tokens}
    (member : branch ∈ list) : branch.normalized ∈ seen ∨
      branch.normalized ∈ (freshBranches seen list).map Tokens.normalized := by
  fun_induction freshBranches seen list with
  | case1 => cases member
  | case2 seen first rest known ih =>
    rcases mem_cons.mp member with rfl | inside
    · exact .inl (contains_iff_mem.mp known)
    · exact ih inside
  | case3 seen first rest _ ih =>
    rw [map_cons, mem_cons]
    rcases mem_cons.mp member with rfl | inside
    · exact .inr (.inl rfl)
    · rcases ih inside with old | new
      · rcases mem_cons.mp old with same | old
        · exact .inr (.inl same)
        · exact .inl old
      · exact .inr (.inr new)

theorem freshBranches_eq_nil {seen : List String} {list : List Tokens}
    (known : ∀ branch ∈ list, branch.normalized ∈ seen) : freshBranches seen list = [] := by
  fun_induction freshBranches seen list with
  | case1 => rfl
  | case2 seen first rest _ ih => exact ih fun branch member => known branch (.tail _ member)
  | case3 seen first rest unknown _ =>
    exact absurd (contains_iff_mem.mpr (known first mem_cons_self)) unknown

section

variable {extension : Extension} {selector : Tokens}

/-- A directive of this kind adds all branches of its selector, or nothing. -/
theorem mem_apply (whole : extension.all = false) {branch : Tokens} :
    branch ∈ extension.apply selector ↔
      extension.Meets selector ∧ branch ∈ extension.selector.branches := by
  rw [apply]
  split
  · rename_i empty
    have target : extension.target = [] := List.isEmpty_iff.mp empty
    constructor
    · nofun
    · rintro ⟨⟨own, inside, fits⟩, _⟩
      rw [target] at fits
      have := Tokens.ne_nil_of_mem_parts inside
      simp_all [Tokens.fits]
  · rename_i filled
    -- For a branch that fits as a whole all branches are added, for every other one none.
    have one (own : Tokens) : branch ∈ extension.applyBranch own ↔
        extension.target.fits own = true ∧ branch ∈ extension.selector.branches := by
      rw [applyBranch_eq (mt List.isEmpty_iff.mpr filled), whole, if_neg Bool.false_ne_true]
      change branch ∈ (if extension.target.fits own = true then _ else _) ↔ _
      split <;> simp_all
    rw [mem_flatMap]
    constructor
    · rintro ⟨own, inside, added⟩
      exact ⟨⟨own, inside, ((one own).mp added).1⟩, ((one own).mp added).2⟩
    · rintro ⟨⟨own, inside, fits⟩, added⟩
      exact ⟨own, inside, (one own).mpr ⟨fits, added⟩⟩

/-- The branches of a selector after a directive. -/
theorem branches_extend_of_apply (own : ∀ branch ∈ selector.branches, branch.IsPart ",")
    (added : ∀ branch ∈ extension.apply selector, branch.IsPart ",") :
    (extension.extend selector).branches =
      selector.branches ++ freshBranches (texts selector) (extension.apply selector) := by
  rw [extend, extend?]
  split
  · rename_i none_
    rw [texts, none_, append_nil]
    rfl
  · rename_i fresh _
    refine Tokens.branches_joinBranches fun branch member => ?_
    rcases mem_append.mp member with inside | inside
    · exact own branch inside
    · exact added branch (mem_freshBranches inside)

theorem branches_extend (own : ∀ branch ∈ selector.branches, branch.IsPart ",")
    (added : ∀ branch ∈ extension.selector.branches, branch.IsPart ",") (whole : extension.all = false) :
    (extension.extend selector).branches =
      selector.branches ++ freshBranches (texts selector) (extension.apply selector) :=
  branches_extend_of_apply own fun branch member => added branch ((mem_apply whole).mp member).2

theorem extend?_eq_none (whole : extension.all = false)
    (known : extension.Meets selector →
      ∀ branch ∈ extension.selector.branches, branch.normalized ∈ texts selector) :
    extension.extend? selector = none := by
  have nothing : freshBranches (texts selector) (extension.apply selector) = [] := by
    refine freshBranches_eq_nil fun branch member => ?_
    obtain ⟨meets, inside⟩ := (mem_apply whole).mp member
    exact known meets branch inside
  rw [texts] at nothing
  rw [extend?, nothing]

end

end Extension

end LessCss
