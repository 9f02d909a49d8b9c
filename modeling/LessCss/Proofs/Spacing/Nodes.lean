import LessCss.Proofs.Css.ReadBack
import LessCss.Proofs.Extension.Passes
import LessCss.Proofs.Spacing.Heads
import LessCss.Proofs.Spacing.Logs

/-! Style sheets whose tokens differ in their places and in how blanks are cut. Main
statements: they have the same text, and directives extend them to such style sheets again
if their selectors are the same in the strict reading. -/

set_option autoImplicit false

namespace LessCss

open List Tokens

variable {strict : Bool} {tokens others : Tokens}

namespace Css

structure Declaration.Respaced (first second : Declaration) : Prop where
  property : second.property = first.property
  value : Tokens.Respaced false first.value second.value
  important : second.important = first.important

inductive Stylesheet.Respaced (strict : Bool) : Stylesheet → Stylesheet → Prop where
  | nil : Respaced strict [] []
  | rule {selector selector' : Tokens} {declarations declarations' : List Declaration} {rest rest' : Stylesheet}
      (head : Tokens.Respaced strict selector selector')
      (body : List.Forall₂ Declaration.Respaced declarations declarations') (others : Respaced strict rest rest') :
      Respaced strict (.rule selector declarations :: rest) (.rule selector' declarations' :: rest')
  | statement (name : String) {params params' : Tokens} {rest rest' : Stylesheet}
      (head : Tokens.Respaced false params params') (others : Respaced strict rest rest') :
      Respaced strict (.statement name params :: rest) (.statement name params' :: rest')
  | block (name : String) {params params' : Tokens} {declarations declarations' : List Declaration}
      {children children' rest rest' : Stylesheet} (head : Tokens.Respaced false params params')
      (body : List.Forall₂ Declaration.Respaced declarations declarations')
      (inner : Respaced strict children children') (others : Respaced strict rest rest') :
      Respaced strict (.block name params declarations children :: rest)
        (.block name params' declarations' children' :: rest')

/-! ### Texts -/

theorem respaced_renderFrom (written pending : Bool) (respaced : Tokens.Respaced strict tokens others) :
    renderFrom written pending others = renderFrom written pending tokens := by
  induction respaced generalizing written pending with
  | nil => rfl
  | solid twin _ ih => rw [renderFrom, renderFrom, twin.solid, twin.solid', twin.text, ih written, ih true, ih]
  | @gap run gap tokens others covers _ ih =>
    have whole : Tokens.Blank [gap] := forall_mem_singleton.mpr covers.whole.isBlank
    rw [renderFrom_gaps written pending covers.blank covers.ne_nil, ← ih]
    exact renderFrom_gaps written pending whole (cons_ne_nil _ _) others

theorem respaced_render (respaced : Tokens.Respaced strict tokens others) : render others = render tokens := by
  rw [render, render, respaced_renderFrom false false respaced]

theorem map_eq_of_forall₂ {α β γ : Type} {R : α → β → Prop} {f : α → γ} {g : β → γ} {list : List α} {list' : List β}
    (all : List.Forall₂ R list list') (step : ∀ a b, R a b → g b = f a) : list'.map g = list.map f := by
  induction all with
  | nil => rfl
  | cons first _ ih => rw [map_cons, map_cons, step _ _ first, ih]

theorem respaced_renderSelector (separator : String) (respaced : Tokens.Respaced strict tokens others) :
    renderSelector separator others = renderSelector separator tokens := by
  rw [renderSelector, renderSelector, map_eq_of_forall₂ respaced.branches fun _ _ same => respaced_render same]

theorem respaced_renderHead (name : String) (respaced : Tokens.Respaced strict tokens others) :
    renderHead name others = renderHead name tokens := by
  rw [renderHead, renderHead, respaced_render respaced]

theorem Declaration.Respaced.pretty {first second : Declaration} (same : first.Respaced second) (level : Nat) :
    second.pretty level = first.pretty level := by
  rw [Declaration.pretty, Declaration.pretty, same.property, respaced_render same.value, same.important]

theorem Declaration.Respaced.minified {first second : Declaration} (same : first.Respaced second) :
    second.minified = first.minified := by
  rw [Declaration.minified, Declaration.minified, same.property, respaced_render same.value, same.important]

namespace Stylesheet.Respaced

variable {nodes nodes' : Stylesheet}

section

variable (same : Respaced strict nodes nodes')

include same

theorem prettyNodes (level : Nat) :
    nodes'.map (Node.pretty level) = nodes.map (Node.pretty level) ∧
      Css.prettyNodes level nodes' = Css.prettyNodes level nodes := by
  -- Nodes are written one by one, whatever kind they are of.
  have cons {node node' : Node} {rest rest' : Stylesheet} {level : Nat} (first : node'.pretty level = node.pretty level)
      (others : rest'.map (Node.pretty level) = rest.map (Node.pretty level) ∧
        Css.prettyNodes level rest' = Css.prettyNodes level rest) :
      (node' :: rest').map (Node.pretty level) = (node :: rest).map (Node.pretty level) ∧
        Css.prettyNodes level (node' :: rest') = Css.prettyNodes level (node :: rest) := by
    rw [map_cons, map_cons, Css.prettyNodes, Css.prettyNodes, first, others.1, others.2]
    exact ⟨rfl, rfl⟩
  have declared {declarations declarations' : List Declaration}
      (body : List.Forall₂ Declaration.Respaced declarations declarations') (level : Nat) :
      prettyDeclarations level declarations' = prettyDeclarations level declarations := by
    rw [prettyDeclarations, prettyDeclarations, map_eq_of_forall₂ body fun _ _ same => same.pretty level]
  induction same generalizing level with
  | nil => exact ⟨rfl, rfl⟩
  | rule head body _ ih =>
    refine cons ?_ (ih level)
    rw [Node.pretty, Node.pretty, isEmpty_of_forall₂ body, respaced_renderSelector ", " head, declared body]
  | statement name head _ ih =>
    refine cons ?_ (ih level)
    rw [Node.pretty, Node.pretty, respaced_renderHead name head]
  | block name head body _ _ ih ih' =>
    refine cons ?_ (ih' level)
    rw [Node.pretty, Node.pretty, respaced_renderHead name head, declared body, (ih (level + 1)).2]

theorem minified : Css.minified nodes' = Css.minified nodes := by
  have declared {declarations declarations' : List Declaration}
      (body : List.Forall₂ Declaration.Respaced declarations declarations') :
      minifiedDeclarations declarations' = minifiedDeclarations declarations := by
    rw [minifiedDeclarations, minifiedDeclarations, map_eq_of_forall₂ body fun _ _ same => same.minified]
  induction same with
  | nil => rfl
  | rule head body _ ih =>
    rw [Css.minified, Css.minified, Node.minified, Node.minified, isEmpty_of_forall₂ body,
      respaced_renderSelector "," head, declared body, ih]
  | statement name head _ ih =>
    rw [Css.minified, Css.minified, Node.minified, Node.minified, respaced_renderHead name head, ih]
  | block name head body _ _ ih ih' =>
    rw [Css.minified, Css.minified, Node.minified, Node.minified, respaced_renderHead name head, declared body, ih, ih']

theorem pretty : Css.pretty nodes' = Css.pretty nodes := by
  rw [Css.pretty, Css.pretty, (same.prettyNodes 0).1]

theorem append {more more' : Stylesheet} (same' : Respaced strict more more') :
    Respaced strict (nodes ++ more) (nodes' ++ more') := by
  induction same with
  | nil => exact same'
  | rule head body _ ih => exact .rule head body ih
  | statement name head _ ih => exact .statement name head ih
  | block name head body inner _ _ ih => exact .block name head body inner ih

end

theorem mapSelectors {change change' : Tokens → Tokens}
    (step : ∀ selector selector', Tokens.Respaced strict selector selector' →
      Tokens.Respaced strict (change selector) (change' selector')) (same : Respaced strict nodes nodes') :
    Respaced strict (Css.mapSelectors change nodes) (Css.mapSelectors change' nodes') := by
  induction same with
  | nil =>
    rw [Css.mapSelectors, Css.mapSelectors]
    exact .nil
  | rule head body _ ih =>
    rw [Css.mapSelectors, Css.mapSelectors]
    exact .rule (step _ _ head) body ih
  | statement name head _ ih =>
    rw [Css.mapSelectors, Css.mapSelectors]
    exact .statement name head ih
  | block name head body _ _ ih ih' =>
    rw [Css.mapSelectors, Css.mapSelectors]
    exact .block name head body ih ih'

end Stylesheet.Respaced

end Css

/-! ### Extensions -/

theorem Logged.agree_of_gives {α β : Type} {R : α → β → Prop} {first : Logged α} {second : Logged β} {value : α}
    {value' : β} (gives : Gives first value) (gives' : Gives second value') (same : R value value') :
    Agree R first second := by
  intro log log'
  obtain ⟨_, ran⟩ := gives log
  obtain ⟨_, ran'⟩ := gives' log'
  rw [ran, ran']
  exact .ok same _ _

/-- Directives are applied token by token, so they are the same in the strict reading. -/
structure Extension.Respaced (strict : Bool) (first second : Extension) : Prop where
  strict : strict = true
  target : Tokens.Respaced true first.target second.target
  selector : Tokens.Respaced true first.selector second.selector
  all : second.all = first.all

theorem Token.Like.agrees {a a' b b' : Token} (first : a.Like a') (second : b.Like b') : a'.agrees b' = a.agrees b := by
  rw [Token.agrees, Token.agrees, Token.same, Token.same, Token.isBlank, Token.isBlank, Token.isBlank, Token.isBlank,
    first.kind, first.text, second.kind, second.text]

namespace Tokens

variable {run run' : Tokens}

theorem like_startsWith (target : List.Forall₂ Token.Like run run') (same : List.Forall₂ Token.Like tokens others) :
    startsWith run' others = startsWith run tokens := by
  induction target generalizing tokens others with
  | nil => rfl
  | cons first _ ih =>
    cases same with
    | nil => rfl
    | cons like rest => rw [startsWith, startsWith, like.agrees first, ih rest]

theorem like_indexOf (target : List.Forall₂ Token.Like run run') (same : List.Forall₂ Token.Like tokens others) :
    indexOf? run' others = indexOf? run tokens := by
  induction same with
  | nil => rfl
  | cons like rest ih => rw [indexOf?, indexOf?, like_startsWith target (.cons like rest), ih]

end Tokens

namespace Extension

theorem like_runsReplaced {target target' replacement replacement' : Tokens}
    (aim : List.Forall₂ Token.Like target target') (put : List.Forall₂ Token.Like replacement replacement')
    {tokens others : Tokens} (same : List.Forall₂ Token.Like tokens others) :
    List.Forall₂ Token.Like (runsReplaced target replacement tokens) (runsReplaced target' replacement' others) := by
  induction size : tokens.length using Nat.strongRecOn generalizing tokens others with
  | ind size ih =>
    subst size
    cases same with
    | nil =>
      rw [runsReplaced, runsReplaced]
      exact .nil
    | @cons _ _ rest _ like following =>
      rw [runsReplaced, runsReplaced, like_startsWith aim (.cons like following), aim.length_eq]
      split
      · have fewer : (rest.drop (target'.length - 1)).length < rest.length + 1 := by
          rw [length_drop]
          omega
        exact rel_append put (ih _ fewer (forall₂_drop _ following) rfl)
      · exact .cons like (ih _ (Nat.lt_succ_self _) following rfl)

namespace Respaced

variable {extension extension' : Extension} (same : extension.Respaced true extension')

include same

theorem applyBranch (filled : extension.target ≠ []) (respaced : Tokens.Respaced true tokens others) :
    Tokens.RespacedParts true (extension.applyBranch tokens) (extension'.applyBranch others) := by
  have like := respaced_true_iff.mp respaced
  have aim := respaced_true_iff.mp same.target
  have filled' : extension'.target ≠ [] := fun empty => filled (forall₂_nil_right_iff.mp (empty ▸ aim))
  rw [applyBranch_eq filled, applyBranch_eq filled', same.all, like_indexOf aim like, like.length_eq,
    aim.length_eq, like_startsWith aim like]
  split
  · split
    · exact .nil
    · refine rel_map (fun added added' put => ?_) same.selector.branches
      exact respaced_true_iff.mpr (like_runsReplaced aim (respaced_true_iff.mp put) like)
  · split
    · exact same.selector.branches
    · exact .nil

theorem apply (respaced : Tokens.Respaced true tokens others) :
    Tokens.RespacedParts true (extension.apply tokens) (extension'.apply others) := by
  rw [Extension.apply, Extension.apply, same.target.isEmpty]
  split
  · exact .nil
  · rename_i filled
    exact rel_flatMap respaced.branches fun _ _ branch => same.applyBranch (mt List.isEmpty_iff.mpr filled) branch

omit same in
theorem freshBranches (seen : List String) {list list' : List Tokens} (parts : Tokens.RespacedParts true list list') :
    Tokens.RespacedParts true (Extension.freshBranches seen list) (Extension.freshBranches seen list') := by
  induction parts generalizing seen with
  | nil => exact .nil
  | cons first _ ih =>
    rw [Extension.freshBranches, Extension.freshBranches, first.normalized]
    split
    · exact ih seen
    · exact .cons first (ih _)

theorem extend (respaced : Tokens.Respaced true tokens others) :
    Tokens.Respaced true (extension.extend tokens) (extension'.extend others) := by
  have texts : others.branches.map normalized = tokens.branches.map normalized :=
    Css.map_eq_of_forall₂ respaced.branches fun _ _ branch => branch.normalized
  have fresh := freshBranches (tokens.branches.map normalized) (same.apply respaced)
  unfold Extension.extend Extension.extend?
  dsimp only
  rw [texts]
  generalize Extension.freshBranches (tokens.branches.map normalized) (extension.apply tokens) = list at fresh ⊢
  generalize Extension.freshBranches (tokens.branches.map normalized) (extension'.apply others) = list' at fresh ⊢
  cases fresh with
  | nil => exact respaced
  | cons first rest => exact .joinBranches (rel_append respaced.branches (.cons first rest))

end Respaced

theorem respaced_extendAll {extensions extensions' : List Extension}
    (all : List.Forall₂ (Extension.Respaced true) extensions extensions') (respaced : Tokens.Respaced true tokens others) :
    Tokens.Respaced true (extendAll extensions tokens) (extendAll extensions' others) := by
  unfold extendAll
  induction all generalizing tokens others with
  | nil => exact respaced
  | cons first _ ih => exact ih (first.extend respaced)

/-- The directives extend such style sheets to such style sheets. -/
theorem respaced_propagate {extensions extensions' : List Extension}
    (all : List.Forall₂ (Extension.Respaced true) extensions extensions') {nodes nodes' : Css.Stylesheet}
    (same : nodes.Respaced true nodes') :
    Logged.Agree (Css.Stylesheet.Respaced true) (propagate extensions nodes) (propagate extensions' nodes') := by
  have iterated (n : Nat) (tokens others : Tokens) (respaced : Tokens.Respaced true tokens others) :
      Tokens.Respaced true ((extendAll extensions)^[n] tokens) ((extendAll extensions')^[n] others) := by
    induction n generalizing tokens others with
    | zero => exact respaced
    | succ n ih =>
      rw [Function.iterate_succ_apply, Function.iterate_succ_apply]
      exact ih _ _ (respaced_extendAll all respaced)
  have result := same.mapSelectors (iterated extensions.length)
  refine Logged.agree_of_gives (gives_propagate extensions nodes) (gives_propagate extensions' nodes') ?_
  rw [← all.length_eq]
  exact result

end Extension

end LessCss
