/-! Tokens: a kind, the text it was read from or made with, and a place. -/

set_option autoImplicit false

namespace LessCss

/-- A place in a named text. Lines and columns count from one, columns in characters,
both in 32 bits that start again from zero when they are full. -/
structure Position where
  source : String
  line : UInt32
  column : UInt32
  deriving DecidableEq, Repr, Inhabited

namespace Position

def nowhere : Position := ⟨"", 0, 0⟩

def start (source : String) : Position := ⟨source, 1, 1⟩

def advance (position : Position) (c : Char) : Position :=
  if c = '\n' then { position with line := position.line + 1, column := 1 }
  else { position with column := position.column + 1 }

def after (position : Position) (cs : List Char) : Position :=
  cs.foldl advance position

def text (position : Position) : String :=
  position.source ++ ":" ++ toString position.line ++ ":" ++ toString position.column

end Position

inductive Kind where
  | identifier
  | atKeyword
  | number
  | percentage
  | dimension
  | string
  | url
  | hash
  | colon
  | delimiter
  | parenOpen
  | parenClose
  | braceOpen
  | braceClose
  | bracketOpen
  | bracketClose
  | whitespace
  | comment
  | other
  | eos
  deriving DecidableEq, Repr, Inhabited

namespace Kind

def isBlank (kind : Kind) : Bool :=
  kind == .whitespace || kind == .comment

def isNumeric (kind : Kind) : Bool :=
  kind == .number || kind == .percentage || kind == .dimension

def opens (kind : Kind) : Bool :=
  kind == .parenOpen || kind == .bracketOpen

def closes (kind : Kind) : Bool :=
  kind == .parenClose || kind == .bracketClose

/-- The bracket depth after a token of this kind. Closing at depth zero stays there. -/
def depthAfter (kind : Kind) (depth : Nat) : Nat :=
  if kind.opens then depth + 1 else if kind.closes then depth - 1 else depth

end Kind

structure Token where
  kind : Kind
  text : String
  position : Position
  deriving DecidableEq, Repr, Inhabited

namespace Token

def synthetic (kind : Kind) (text : String) : Token := ⟨kind, text, .nowhere⟩

def derived (kind : Kind) (text : String) (at_ : Token) : Token := ⟨kind, text, at_.position⟩

def space : Token := synthetic .whitespace " "

def comma : Token := synthetic .other ","

def isBlank (token : Token) : Bool := token.kind.isBlank

def same (a b : Token) : Bool := a.kind == b.kind && a.text == b.text

/-- Equal up to the place, any two blanks counting as equal. -/
def agrees (a b : Token) : Bool := (a.isBlank && b.isBlank) || a.same b

def isMark (token : Token) (text : String) : Bool := token.kind == .other && token.text == text

/-- How messages show the token. The end of the input has no text of its own. -/
def shown (token : Token) : String :=
  if token.kind = .eos then "输入结尾" else token.text

end Token

end LessCss
