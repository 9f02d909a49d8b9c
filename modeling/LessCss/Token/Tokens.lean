import LessCss.Token.Basic
import LessCss.Text

/-! Lists of tokens: trimming, cutting at separators outside brackets, joining,
searching for a run of tokens, and taking a bracketed group. -/

set_option autoImplicit false

namespace LessCss

abbrev Tokens := List Token

namespace Tokens

def text (tokens : Tokens) : String :=
  String.join (tokens.map Token.text)

/-- The text with every run of blanks as one space, for comparison and messages. -/
def normalized (tokens : Tokens) : String :=
  Text.collapse tokens.text

def trimLeft (tokens : Tokens) : Tokens :=
  tokens.dropWhile Token.isBlank

def trimRight (tokens : Tokens) : Tokens :=
  (tokens.reverse.dropWhile Token.isBlank).reverse

def trim (tokens : Tokens) : Tokens :=
  trimRight (trimLeft tokens)

theorem length_trimLeft_le (tokens : Tokens) : (trimLeft tokens).length ≤ tokens.length :=
  (List.dropWhile_sublist _).length_le

theorem length_lt_of_trimLeft (tokens : Tokens) {token : Token} {rest : Tokens}
    (start : trimLeft tokens = token :: rest) : rest.length < tokens.length := by
  have bound := length_trimLeft_le tokens
  rw [start] at bound
  exact bound

def headKind? (tokens : Tokens) : Option Kind :=
  tokens.head?.map Token.kind

def headIs (tokens : Tokens) (kind : Kind) : Bool :=
  tokens.headKind? == some kind

def headText? (tokens : Tokens) : Option String :=
  tokens.head?.map Token.text

/-- The place of the first token that is not blank, else of the first token. -/
def position (tokens : Tokens) : Position :=
  match tokens.find? fun token => !token.isBlank with
  | some token => token.position
  | none => (tokens.head?.map Token.position).getD .nowhere

def separates (separator : String) (token : Token) : Bool :=
  (token.kind == .other || token.kind == .delimiter) && token.text == separator

def consHead (token : Token) : List Tokens → List Tokens
  | [] => [[token]]
  | part :: parts => (token :: part) :: parts

def stretches (separator : String) (depth : Nat) : Tokens → List Tokens
  | [] => [[]]
  | token :: rest =>
    if depth = 0 && separates separator token then [] :: stretches separator 0 rest
    else consHead token (stretches separator (token.kind.depthAfter depth) rest)

/-- The parts between separators outside brackets, trimmed; empty ones are left out. -/
def parts (separator : String) (tokens : Tokens) : List Tokens :=
  ((stretches separator 0 tokens).map trim).filter fun part => !part.isEmpty

def branches (tokens : Tokens) : List Tokens :=
  tokens.parts ","

/-- Whether a token other than a bracket has this text outside all brackets. -/
def hasTopLevel (text : String) (tokens : Tokens) : Bool :=
  go 0 tokens
where
  go (depth : Nat) : Tokens → Bool
    | [] => false
    | token :: rest =>
      (depth == 0 && !token.kind.opens && !token.kind.closes && token.text == text) ||
        go (token.kind.depthAfter depth) rest

/-- The separator that a list in parentheses uses: semicolons win over commas. -/
def groupSeparator (tokens : Tokens) : String :=
  if tokens.hasTopLevel ";" then ";" else ","

def joinBranches (branches : List Tokens) : Tokens :=
  [Token.comma, Token.space].intercalate branches

def joinSpaced (values : List Tokens) : Tokens :=
  [Token.space].intercalate values

def startsWith : (run tokens : Tokens) → Bool
  | [], _ => true
  | _ :: _, [] => false
  | first :: run, token :: rest => token.agrees first && startsWith run rest

def indexOf? (run : Tokens) : Tokens → Option Nat
  | [] => none
  | token :: rest => if startsWith run (token :: rest) then some 0 else (indexOf? run rest).map (· + 1)

/-- The index of the first place from an index on where the run occurs. The
empty run occurs nowhere. -/
def indexOfFrom? (run tokens : Tokens) (start : Nat) : Option Nat :=
  if run.isEmpty then none else (indexOf? run (tokens.drop start)).map (· + start)

/-- What stands before the parenthesis that closes the current group, and what
follows it. `depth` counts the parentheses open inside the group. -/
def takeGroup? (depth : Nat) : Tokens → Option (Tokens × Tokens)
  | [] => none
  | token :: rest =>
    if token.kind = .parenClose then
      if depth = 0 then some ([], rest)
      else (takeGroup? (depth - 1) rest).map fun group => (token :: group.1, group.2)
    else
      (takeGroup? (if token.kind = .parenOpen then depth + 1 else depth) rest).map
        fun group => (token :: group.1, group.2)

theorem length_of_takeGroup? {depth : Nat} {tokens inner rest : Tokens}
    (found : takeGroup? depth tokens = some (inner, rest)) :
    inner.length + rest.length < tokens.length := by
  induction tokens generalizing depth inner with
  | nil => simp [takeGroup?] at found
  | cons token tail ih =>
    unfold takeGroup? at found
    split at found
    · split at found
      · cases found; simp
      · obtain ⟨group, read, same⟩ := Option.map_eq_some_iff.mp found
        cases same
        have := ih read
        simp only [List.length_cons]; omega
    · obtain ⟨group, read, same⟩ := Option.map_eq_some_iff.mp found
      cases same
      have := ih read
      simp only [List.length_cons]; omega

def takeGroup (tokens : Tokens) : Tokens × Tokens :=
  (takeGroup? 0 tokens).getD (tokens, [])

theorem length_takeGroup_le (tokens : Tokens) : (takeGroup tokens).2.length ≤ tokens.length := by
  unfold takeGroup
  cases found : takeGroup? 0 tokens with
  | none => simp
  | some group =>
    have := length_of_takeGroup? (show takeGroup? 0 tokens = some (group.1, group.2) from found)
    simp only [Option.getD_some]; omega

end Tokens

end LessCss
