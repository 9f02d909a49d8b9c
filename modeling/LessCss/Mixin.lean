import LessCss.Selector
import LessCss.Variables

/-! Mixin calls such as `.name(arguments);` and `#space > .name !important;`, and matching
a call with a definition: walking the call's path along selectors, and binding its
arguments to parameters. -/

set_option autoImplicit false

namespace LessCss

/-- One step of a path: `#id` with its mark, or the name of a class without its point. -/
inductive Fragment where
  | id (text : String)
  | cls (name : String)
  deriving DecidableEq, Repr

def Fragment.text : Fragment → String
  | .id text => text
  | .cls name => "." ++ name

structure MixinCall where
  /-- The tokens of the path, for messages. -/
  name : Tokens
  path : List Fragment
  arguments : List Tokens
  named : Variables
  important : Bool
  deriving DecidableEq, Repr

namespace MixinCall

def displayName (call : MixinCall) : String := call.name.normalized

def hasArguments (call : MixinCall) : Bool :=
  !call.arguments.isEmpty || !call.named.entries.isEmpty

/-- Reads a path: the tokens it is written with, its fragments, and what follows.
Blanks and `>` count as part of it once a fragment has been read. -/
def readPath (started : Bool) : Tokens → Tokens × List Fragment × Tokens
  | [] => ([], [], [])
  | token :: rest =>
    if token.kind = .hash then
      let (name, path, after) := readPath true rest
      (token :: name, .id token.text :: path, after)
    else if started && (token.isBlank || token.isMark ">") then
      let (name, path, after) := readPath true rest
      (token :: name, path, after)
    else
      match rest with
      | word :: tail =>
        if token.isMark "." && word.kind == .identifier then
          let (name, path, after) := readPath true tail
          (token :: word :: name, .cls word.text :: path, after)
        else ([], [], token :: word :: tail)
      | [] => ([], [], [token])

def readNamed? (part : Tokens) : Option (String × Tokens) :=
  match part with
  | name :: rest =>
    match Tokens.trimLeft rest with
    | mark :: value =>
      if name.kind = .atKeyword && mark.kind = .colon then some (name.text, Tokens.trimLeft value)
      else none
    | [] => none
  | [] => none

def readArguments (group : Tokens) : List Tokens × Variables :=
  let parts := group.parts group.groupSeparator
  (parts.filter fun part => (readNamed? part).isNone, Variables.ofEntries (parts.filterMap readNamed?))

/-- Whether the tokens after the arguments are nothing or the mark `!important`;
anything else makes the statement no call. -/
def readImportant? (tokens : Tokens) : Option Bool :=
  match Tokens.trimLeft tokens with
  | [] => some false
  | mark :: rest =>
    if mark.text = "!" then
      match Tokens.trimLeft rest with
      | word :: after =>
        if word.text = "important" && (Tokens.trim after).isEmpty then some true else none
      | [] => none
    else none

/-- The parenthesised arguments at the front, if a parenthesis is there. A group
that is not closed makes the statement no call. -/
def readGroup? (tokens : Tokens) : Option (Tokens × Tokens) :=
  if tokens.headIs .parenOpen then Tokens.takeGroup? 0 tokens.tail else some ([], tokens)

def read? (tokens : Tokens) : Option MixinCall :=
  let (name, path, after) := readPath false tokens.trim
  if path.isEmpty then none
  else do
    let group ← readGroup? after
    let important ← readImportant? group.2
    let (arguments, named) := readArguments group.1
    return ⟨name.trim, path, arguments, named, important⟩

end MixinCall

/-- The fragments that a branch consists of, with blanks and `>` between them. A
branch with anything else, such as a pseudo-class, is no path. -/
def Fragment.ofBranch? : Tokens → Option (List Fragment)
  | [] => some []
  | token :: rest =>
    if token.kind = .hash then (ofBranch? rest).map (.id token.text :: ·)
    else if token.isBlank || token.isMark ">" then ofBranch? rest
    else
      match rest with
      | word :: tail =>
        if token.isMark "." && word.kind == .identifier then
          (ofBranch? tail).map (.cls word.text :: ·)
        else none
      | [] => none

namespace MixinCall

/-- Follows the path from `offset` on along the first branch of the selector that
spells the next fragments, and returns the offset behind them. -/
def walk (call : MixinCall) (selector : Tokens) (offset : Nat) : Option Nat :=
  selector.branches.findSome? fun branch =>
    match Fragment.ofBranch? branch with
    | some (first :: rest) =>
      if (first :: rest).isPrefixOf (call.path.drop offset) then some (offset + (first :: rest).length)
      else none
    | _ => none

/-- Gives each parameter its named value, else the next positional argument, else
its fallback; also returns the arguments left over. -/
def assign? (named : Variables) : List Parameter → List Tokens → Option (List (String × Tokens) × List Tokens)
  | [], arguments => some ([], arguments)
  | parameter :: parameters, arguments => do
    let (value, arguments) ←
      match named.get? parameter.name with
      | some value => some (value, arguments)
      | none =>
        match arguments with
        | value :: arguments => some (value, arguments)
        | [] => parameter.fallback.map fun value => (value, [])
    let (assigned, left) ← assign? named parameters arguments
    return ((parameter.name, value) :: assigned, left)

def allArguments : String := "@arguments"

/-- Binds the arguments to the parameters of a definition. A definition without
a parameter list takes no arguments; left-over arguments need a rest parameter. -/
def bind? (call : MixinCall) (selector : Selector) : Option Variables :=
  match selector.parameters with
  | none => if call.hasArguments then none else some .empty
  | some list => do
    let (assigned, left) ← assign? call.named list.parameters call.arguments
    if !left.isEmpty && !list.unlimited then none
    else
      let rest :=
        match list.rest with
        | .named name => [(name, Tokens.joinSpaced left)]
        | _ => []
      let all := (allArguments, Tokens.joinSpaced (assigned.map Prod.snd ++ left))
      return Variables.ofEntries (assigned ++ rest ++ [all])

end MixinCall

end LessCss
