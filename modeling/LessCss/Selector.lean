import LessCss.Token.Tokens

/-! The head of a ruleset, cut into the selector proper, the parameters of a
mixin definition, guard conditions and `:extend(...)` directives; and selectors
of nested rulesets, every branch of the outer one with every branch of the inner.
Every head is readable: what is no parameter list, guard or directive stays in the selector. -/

set_option autoImplicit false

namespace LessCss

open List Tokens

structure Parameter where
  name : String
  fallback : Option Tokens
  deriving DecidableEq, Repr

inductive RestParameter where
  | absent
  | anonymous
  | named (name : String)
  deriving DecidableEq, Repr

structure ParameterList where
  parameters : List Parameter
  rest : RestParameter
  deriving DecidableEq, Repr

def ParameterList.unlimited (list : ParameterList) : Bool :=
  list.rest != .absent

/-- A request that the ruleset's selector also apply where the target does. With
`all`, the target may be any run of tokens in a branch. -/
structure Extend where
  target : Tokens
  all : Bool
  deriving DecidableEq, Repr

structure Selector where
  tokens : Tokens
  parameters : Option ParameterList
  /-- Alternatives, one of which has to hold. No alternative is no condition. -/
  conditions : List Tokens
  extensions : List Extend
  deriving DecidableEq, Repr

namespace Selector

def empty : Selector := ⟨[], none, [], []⟩

/-- A ruleset with a parameter list, even an empty one, is a mixin definition only. -/
def isMixin (selector : Selector) : Bool := selector.parameters.isSome

def isGuarded (selector : Selector) : Bool := !selector.conditions.isEmpty

def isParentMark (token : Token) : Bool := token.text == "&"

/-- One branch inside another: each `&` stands for the outer branch, and a
branch without `&` follows the outer one after a space. -/
def nestBranch (outer inner : Tokens) : Tokens :=
  if inner.any isParentMark then
    inner.flatMap fun token => if isParentMark token then outer else [token]
  else outer ++ Token.space :: inner

/-- A selector inside an outer one. An outer selector without branches adds nothing. -/
def nest (outer inner : Tokens) : Tokens :=
  if outer.branches.isEmpty then joinBranches inner.branches
  else joinBranches (outer.branches.flatMap fun o => inner.branches.map (nestBranch o))

end Selector

/-! ### Reading -/

def isEllipsis (tokens : Tokens) : Bool :=
  (tokens.take 3).map Token.text == [".", ".", "."]

/-- Reads the parts of a parameter list. A part that is no parameter, such as a
literal, and a part after the rest parameter make it no list at all. -/
def ParameterList.ofParts? : List Tokens → Option ParameterList
  | [] => some ⟨[], .absent⟩
  | [] :: _ => none
  | (name :: after) :: parts =>
    if isEllipsis (name :: after) then if parts.isEmpty then some ⟨[], .anonymous⟩ else none
    else if name.kind ≠ .atKeyword then none
    else
      match trimLeft after with
      | [] => (ofParts? parts).map fun list =>
          { list with parameters := ⟨name.text, none⟩ :: list.parameters }
      | mark :: value =>
        if mark.kind = .colon then
          if (trim value).isEmpty then none
          else (ofParts? parts).map fun list =>
            { list with parameters := ⟨name.text, some (trim value)⟩ :: list.parameters }
        else if isEllipsis (mark :: value) && value.length == 2 && parts.isEmpty then
          some ⟨[], .named name.text⟩
        else none

def ParameterList.read? (group : Tokens) : Option ParameterList :=
  ofParts? (group.parts group.groupSeparator)

/-- A target, with the word `all` at its end read as a flag. -/
def Extend.ofTarget (target : Tokens) : Extend :=
  match target.reverse with
  | last :: rest =>
    if last.text = "all" then ⟨trimRight rest.reverse, true⟩ else ⟨target, false⟩
  | [] => ⟨target, false⟩

def Extend.readGroup (group : Tokens) : List Extend :=
  group.branches.map Extend.ofTarget

namespace Selector

/-- Whether tokens, given from the last to the first, end in `.name` or `#name`. -/
def endsInName : Tokens → Bool
  | last :: rest =>
    last.kind == .hash || (last.kind == .identifier && rest.head?.any fun token => token.isMark ".")
  | [] => false

def opensExtend (afterColon : Tokens) : Bool :=
  afterColon.headText? == some "extend" && headIs (afterColon.drop 1) .parenOpen

/-- A guard begins at the word `when` after a blank, with something before the blank. -/
def opensGuard (token : Token) (seen : Tokens) : Bool :=
  token.kind == .identifier && token.text == "when" && seen.head?.any Token.isBlank &&
    seen.any fun before => !before.isBlank

/-- `seen` holds the selector tokens so far, the last one first. -/
def readFrom (seen : Tokens) (selector : Selector) (input : Tokens) : Selector :=
  match input with
  | [] => { selector with tokens := trim seen.reverse }
  | token :: rest =>
    if token.kind = .colon && opensExtend rest then
      let group := takeGroup (rest.drop 2)
      readFrom seen { selector with extensions := selector.extensions ++ Extend.readGroup group.1 } group.2
    else if token.kind = .parenOpen && selector.parameters.isNone && endsInName seen then
      let group := takeGroup rest
      match ParameterList.read? group.1 with
      | some list => readFrom seen { selector with parameters := some list } group.2
      | none =>
        let close := Token.derived .parenClose ")" token
        readFrom (close :: group.1.reverse ++ token :: seen) selector group.2
    else if opensGuard token seen then
      { selector with conditions := branches rest, tokens := trim seen.reverse }
    else readFrom (token :: seen) selector rest
termination_by input.length
decreasing_by
  · have := length_takeGroup_le (rest.drop 2)
    have := (drop_sublist 2 rest).length_le
    simp only [length_cons]; omega
  · have := length_takeGroup_le rest
    simp only [length_cons]; omega
  · have := length_takeGroup_le rest
    simp only [length_cons]; omega
  · simp

def read (tokens : Tokens) : Selector :=
  readFrom [] empty tokens

end Selector

end LessCss
