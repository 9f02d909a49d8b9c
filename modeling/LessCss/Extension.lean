import LessCss.Css
import LessCss.Log

/-! Extensions: where the target of a directive matches a branch of a rule's
selector, the branches of the extending selector are added to that rule. They
are applied in order, pass after pass, until nothing is added. -/

set_option autoImplicit false

namespace LessCss

structure Extension where
  target : Tokens
  /-- The selector whose branches are added. -/
  selector : Tokens
  /-- Whether the target may be any run of tokens in a branch. -/
  all : Bool
  deriving DecidableEq, Repr

namespace Extension

/-- Whether the search for the target from this index on finds it right there. -/
def matchesAt (target branch : Tokens) (index : Nat) : Bool :=
  Tokens.indexOfFrom? target branch index == some index

theorem length_of_matchesAt {target branch : Tokens} {index : Nat} (found : matchesAt target branch index = true) :
    0 < target.length := by
  cases target with
  | nil => cases found
  | cons first rest => exact Nat.succ_pos _

/-- The copy of a branch from an index on, in which the runs that match are replaced. -/
def replaceFrom (target replacement branch : Tokens) (index : Nat) : Tokens :=
  match _here : branch[index]? with
  | none => []
  | some token =>
    if _found : matchesAt target branch index then
      replacement ++ replaceFrom target replacement branch (index + target.length)
    else token :: replaceFrom target replacement branch (index + 1)
termination_by branch.length - index
decreasing_by
  all_goals have inside := (List.getElem?_eq_some_iff.mp _here).1
  · have := length_of_matchesAt _found
    omega
  · omega

def replaceRuns (target replacement branch : Tokens) : Tokens := replaceFrom target replacement branch 0

def applyBranch (extension : Extension) (branch : Tokens) : List Tokens :=
  if extension.all then
    if (Tokens.indexOfFrom? extension.target branch 0).isNone then []
    else extension.selector.branches.map fun added => replaceRuns extension.target added branch
  else if branch.length = extension.target.length && matchesAt extension.target branch 0 then
    extension.selector.branches
  else []

/-- The branches that a selector gives rise to, which it may have already. An
empty target matches nothing. -/
def apply (extension : Extension) (selector : Tokens) : List Tokens :=
  if extension.target.isEmpty then [] else selector.branches.flatMap extension.applyBranch

/-- The branches whose texts are not seen before, each text once. -/
def freshBranches (seen : List String) : List Tokens → List Tokens
  | [] => []
  | branch :: rest =>
    if seen.contains branch.normalized then freshBranches seen rest
    else branch :: freshBranches (branch.normalized :: seen) rest

def extend? (extension : Extension) (selector : Tokens) : Option Tokens :=
  let branches := selector.branches
  match freshBranches (branches.map Tokens.normalized) (extension.apply selector) with
  | [] => none
  | fresh => some (Tokens.joinBranches (branches ++ fresh))

def extend (extension : Extension) (selector : Tokens) : Tokens :=
  (extension.extend? selector).getD selector

def step (extension : Extension) (nodes : Css.Stylesheet) : Logged (Css.Stylesheet × Bool) := do
  let changed := (Css.selectors nodes).filter fun selector => (extension.extend? selector).isSome
  for selector in changed do
    Logged.report .trace ("扩展 " ++ extension.selector.normalized ++ " -> " ++
      extension.target.normalized ++ " 作用于 " ++ selector.normalized)
  return (Css.mapSelectors extension.extend nodes, !changed.isEmpty)

def pass : List Extension → Css.Stylesheet → Logged (Css.Stylesheet × Bool)
  | [], nodes => return (nodes, false)
  | extension :: rest, nodes => do
    let (nodes, changed) ← extension.step nodes
    let (nodes, changed') ← pass rest nodes
    return (nodes, changed || changed')

/-- Repeats the pass until nothing changes, `limit` times at most. -/
def repeatPass (extensions : List Extension) (number : Nat) : (limit : Nat) → Css.Stylesheet →
    Logged Css.Stylesheet
  | 0, nodes => return nodes
  | limit + 1, nodes => do
    let (nodes, changed) ← pass extensions nodes
    if changed then repeatPass extensions (number + 1) limit nodes
    else
      Logged.report .debug ("扩展传播在第 " ++ toString number ++ " 轮后稳定")
      return nodes

/-- Applies the directives until nothing changes, with one pass for each of them at most. -/
def propagate (extensions : List Extension) (nodes : Css.Stylesheet) : Logged Css.Stylesheet :=
  repeatPass extensions 1 extensions.length nodes

end Extension

end LessCss
