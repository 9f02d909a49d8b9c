import LessCss.Token.Tokens

/-! Flat style sheets: rules, at-statements, and at-blocks that hold declarations and
further nodes. Their texts have one declaration on a line and an empty line between
the nodes, or no space that can be left out. A rule without declarations is not written. -/

set_option autoImplicit false

namespace LessCss.Css

structure Declaration where
  property : String
  value : Tokens
  important : Bool
  deriving DecidableEq, Repr

inductive Node where
  | rule (selector : Tokens) (declarations : List Declaration)
  /-- An at-rule without a block, such as `@charset`. -/
  | statement (name : String) (params : Tokens)
  | block (name : String) (params : Tokens) (declarations : List Declaration) (children : List Node)
  deriving Repr

abbrev Stylesheet := List Node

def mapSelectors (change : Tokens → Tokens) : Stylesheet → Stylesheet
  | [] => []
  | .rule selector declarations :: rest =>
    .rule (change selector) declarations :: mapSelectors change rest
  | .statement name params :: rest => .statement name params :: mapSelectors change rest
  | .block name params declarations children :: rest =>
    .block name params declarations (mapSelectors change children) :: mapSelectors change rest

def selectors : Stylesheet → List Tokens
  | [] => []
  | .rule selector _ :: rest => selector :: selectors rest
  | .statement _ _ :: rest => selectors rest
  | .block _ _ _ children :: rest => selectors children ++ selectors rest

/-- The texts of tokens, with what is written so far and blanks that wait. A
run of blanks becomes one space once something is written. -/
def renderFrom (written pending : Bool) : Tokens → List String
  | [] => []
  | token :: rest =>
    if token.isBlank then renderFrom written written rest
    else if pending then " " :: token.text :: renderFrom true false rest
    else token.text :: renderFrom (written || !token.text.isEmpty) false rest

/-- The text of a value: no blanks at the ends, and one space for blanks inside. -/
def render (tokens : Tokens) : String :=
  String.join (renderFrom false false tokens)

def renderSelector (separator : String) (selector : Tokens) : String :=
  separator.intercalate (selector.branches.map render)

def renderHead (name : String) (params : Tokens) : String :=
  let text := render params
  if text.isEmpty then name else name ++ " " ++ text

/-! ### One declaration on a line -/

def indent (level : Nat) : String :=
  String.join (List.replicate level "  ")

def Declaration.pretty (level : Nat) (declaration : Declaration) : String :=
  indent level ++ Text.trim declaration.property ++ ": " ++ render declaration.value ++
    (if declaration.important then " !important;\n" else ";\n")

def prettyDeclarations (level : Nat) (declarations : List Declaration) : String :=
  String.join (declarations.map (Declaration.pretty level))

mutual

def Node.pretty (level : Nat) : Node → String
  | .rule selector declarations =>
    if declarations.isEmpty then ""
    else
      indent level ++ renderSelector ", " selector ++ " \x7b\n" ++
        prettyDeclarations (level + 1) declarations ++ indent level ++ "\x7d\n"
  | .statement name params => indent level ++ renderHead name params ++ ";\n"
  | .block name params declarations children =>
    indent level ++ renderHead name params ++ " \x7b\n" ++
      prettyDeclarations (level + 1) declarations ++ prettyNodes (level + 1) children ++
      indent level ++ "\x7d\n"

def prettyNodes (level : Nat) : List Node → String
  | [] => ""
  | node :: rest => node.pretty level ++ prettyNodes level rest

end

def pretty (nodes : Stylesheet) : String :=
  let blocks := (nodes.map (Node.pretty 0)).filter fun block => !block.isEmpty
  Text.trim ("\n".intercalate blocks)

/-! ### As short as possible -/

def Declaration.minified (declaration : Declaration) : String :=
  Text.trim declaration.property ++ ":" ++ render declaration.value ++
    (if declaration.important then "!important" else "")

def minifiedDeclarations (declarations : List Declaration) : String :=
  ";".intercalate (declarations.map Declaration.minified)

mutual

def Node.minified : Node → String
  | .rule selector declarations =>
    if declarations.isEmpty then ""
    else renderSelector "," selector ++ "\x7b" ++ minifiedDeclarations declarations ++ "\x7d"
  | .statement name params => renderHead name params ++ ";"
  | .block name params declarations children =>
    renderHead name params ++ "\x7b" ++ minifiedDeclarations declarations ++ minified children ++ "\x7d"

def minified : Stylesheet → String
  | [] => ""
  | node :: rest => node.minified ++ minified rest

end

end LessCss.Css
