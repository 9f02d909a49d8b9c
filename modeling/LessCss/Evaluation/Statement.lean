import LessCss.Selector

/-! The forms of a statement inside a ruleset, apart from calls: directives that
extend the ruleset's selector, and declarations. -/

set_option autoImplicit false

namespace LessCss.Statement

/-- The directives of a statement such as `&:extend(.a);`, which has nothing else. -/
def extends? (tokens : Tokens) : Option (List Extend) :=
  if tokens.headText? = some "&" then
    let selector := Selector.read tokens
    if selector.tokens.length = 1 && !selector.extensions.isEmpty then some selector.extensions
    else none
  else none

def splitColon? (depth : Nat) : Tokens → Option (Tokens × Tokens)
  | [] => none
  | token :: rest =>
    if depth = 0 && token.kind = .colon then some ([], rest)
    else
      (splitColon? (token.kind.depthAfter depth) rest).map fun (before, after) =>
        (token :: before, after)

/-- The property and the value of a declaration. A property has no spaces inside. -/
def declaration? (tokens : Tokens) : Option (Tokens × Tokens) :=
  match splitColon? 0 tokens with
  | none => none
  | some (before, after) =>
    let property := before.trim
    if property.isEmpty || property.any (·.kind == .whitespace) then none
    else some (property, after.trim)

def stripImportant (value : Tokens) : Tokens × Bool :=
  match value.reverse.dropWhile Token.isBlank with
  | word :: rest =>
    match rest.dropWhile Token.isBlank with
    | mark :: front =>
      if word.text = "important" && mark.text = "!" then
        ((front.dropWhile Token.isBlank).reverse, true)
      else (value.trimRight, false)
    | [] => (value.trimRight, false)
  | [] => (value.trimRight, false)

/-- Takes the options in parentheses off the front of what follows `@import`. -/
def stripImportOptions (tokens : Tokens) : Tokens :=
  if tokens.headIs .parenOpen then
    Tokens.trimLeft (tokens.dropWhile fun token => token.kind != .parenClose).tail
  else tokens

end LessCss.Statement
