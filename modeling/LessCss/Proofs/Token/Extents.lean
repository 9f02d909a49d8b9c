import LessCss.Token.Cursor

/-! How many characters of a text belong to the token that the text begins with, and of
which kind that token is. Every extent is a number of characters, so a token can be cut
off with `take`, and what is left with `drop`. -/

set_option autoImplicit false

namespace LessCss.Lexeme

open Text (isBlank)

structure Extent where
  closed : Bool
  length : Nat
  deriving DecidableEq, Repr

def Extent.add (extent : Extent) (n : Nat) : Extent := { extent with length := extent.length + n }

/-- The part of a name at the front of a text. A backslash takes the next
character with it, and an interpolation is taken up to its closing brace. -/
def nameExtent (inHole : Bool) : List Char → Nat
  | [] => 0
  | c :: rest =>
    if inHole then nameExtent (c != '\x7d') rest + 1
    else if c == '@' && rest.head? == some '\x7b' then nameExtent true rest + 1
    else if c == '\\' then
      match rest with
      | [] => 1
      | _ :: after => nameExtent false after + 2
    else if isNameChar c then nameExtent false rest + 1
    else 0

/-- The rest of a block comment after its opening mark, end mark included. -/
def commentExtent : List Char → Extent
  | [] => ⟨false, 0⟩
  | '*' :: '/' :: _ => ⟨true, 2⟩
  | _ :: rest => (commentExtent rest).add 1

/-- The rest of a string after its opening quote, closing quote included. A
newline ends it unclosed unless a backslash stands before the newline. -/
def stringExtent (quote : Char) : List Char → Extent
  | [] => ⟨false, 0⟩
  | c :: rest =>
    if c == quote then ⟨true, 1⟩
    else if c == '\n' then ⟨false, 1⟩
    else if c == '\\' then
      match rest with
      | [] => ⟨false, 1⟩
      | _ :: after => (stringExtent quote after).add 2
    else (stringExtent quote rest).add 1

/-- The rest of a url from its opening parenthesis on. Parentheses nest, and
strings inside hide theirs. -/
def urlExtent (depth : Nat) (cs : List Char) : Extent :=
  match cs with
  | [] => ⟨false, 0⟩
  | c :: rest =>
    if c == '"' || c == '\'' then
      let string := stringExtent c rest
      if string.closed then (urlExtent depth (rest.drop string.length)).add (string.length + 1)
      else string.add 1
    else if c == '(' then (urlExtent (depth + 1) rest).add 1
    else if c == ')' then
      if depth ≤ 1 then ⟨true, 1⟩ else (urlExtent (depth - 1) rest).add 1
    else (urlExtent depth rest).add 1
termination_by cs.length
decreasing_by
  all_goals simp only [List.length_cons, List.length_drop]
  all_goals omega

/-- The digits of a number with at most one point, which has to stand before a digit. -/
def digitsExtent (pointSeen : Bool) : List Char → Nat
  | [] => 0
  | c :: rest =>
    if c.isDigit then digitsExtent pointSeen rest + 1
    else if c == '.' && !pointSeen && rest.head?.any Char.isDigit then digitsExtent true rest + 1
    else 0

/-- The extent of a number without its sign, and its kind by what follows the digits. -/
def numberExtent (cs : List Char) : Kind × Nat :=
  let digits := digitsExtent false cs
  match cs.drop digits with
  | [] => (.number, digits)
  | c :: rest =>
    if c == '%' then (.percentage, digits + 1)
    else if isAsciiLetter c then (.dimension, digits + 1 + (rest.takeWhile isAsciiLetter).length)
    else (.number, digits)

/-- The first token of a text whose first character is given apart. `more`
counts its characters after the first one. -/
inductive Reading where
  | token (kind : Kind) (more : Nat)
  | unclosed (expected : Expectation) (more : Nat)
  deriving DecidableEq, Repr

def ofExtent (kind : Kind) (expected : Expectation) (extent : Extent) : Reading :=
  if extent.closed then .token kind extent.length else .unclosed expected extent.length

/-- A name, or a url if the name says so and a parenthesis follows. -/
def readName (c : Char) (rest : List Char) : Reading :=
  let more := nameExtent false (c :: rest) - 1
  if (c :: rest.take more).map Char.toLower == ['u', 'r', 'l'] && rest[more]? == some '(' then
    ofExtent .url .urlEnd ((urlExtent 0 (rest.drop more)).add more)
  else .token .identifier more

/-- Reads one token. `last` is the token before it, comments left out. -/
def read (last : Option Token) (c : Char) (rest : List Char) : Reading :=
  let next := rest.head?
  if isBlank c then .token .whitespace (rest.takeWhile isBlank).length
  else if c == '/' && next == some '*' then
    ofExtent .comment .commentEnd ((commentExtent rest.tail).add 1)
  else if c == '/' && next == some '/' then .token .comment (rest.takeWhile (· != '\n')).length
  else if c == '"' || c == '\'' then ofExtent .string .stringEnd (stringExtent c rest)
  else if c == '@' then
    if next == some '\x7b' then .token .identifier (nameExtent false (c :: rest) - 1)
    else if next.any fun d => isNameStart d || d == '-' then .token .atKeyword (nameExtent false rest)
    else .token .other 0
  else if c == '#' && next.any isNameChar then .token .hash (nameExtent false rest)
  else if startsNumber (c :: rest) then
    let number := numberExtent (c :: rest)
    .token number.1 (number.2 - 1)
  else if c == '-' && startsNumber rest && allowsSign last then
    let number := numberExtent rest
    .token number.1 number.2
  else if c == '-' && (next.any (fun d => isNameStart d || d == '-') ||
      (next == some '@' && rest[1]? == some '\x7b')) then
    .token .identifier (nameExtent false (c :: rest) - 1)
  else if isNameStart c then readName c rest
  else .token (markKind c) 0

/-! ### Equations -/

theorem nameExtent_char {c : Char} (rest : List Char) (named : isNameChar c = true) (plain : c ≠ '\\') :
    nameExtent false (c :: rest) = nameExtent false rest + 1 := by
  have mark : c ≠ '@' := by
    rintro rfl
    revert named
    decide
  rw [nameExtent.eq_def]
  simp [mark, plain, named]

theorem nameExtent_escape (c : Char) (rest : List Char) :
    nameExtent false ('\\' :: c :: rest) = nameExtent false rest + 2 := by
  rw [nameExtent.eq_def]
  simp

theorem nameExtent_openHole {rest : List Char} (opens : rest.head? = some '\x7b') :
    nameExtent false ('@' :: rest) = nameExtent true rest + 1 := by
  rw [nameExtent.eq_def]
  simp [opens]

theorem nameExtent_inHole (c : Char) (rest : List Char) :
    nameExtent true (c :: rest) = nameExtent (c != '\x7d') rest + 1 := by
  rw [nameExtent.eq_def]
  simp

theorem nameExtent_ne_zero {c : Char} (rest : List Char) (named : isNameChar c = true) :
    nameExtent false (c :: rest) ≠ 0 := by
  by_cases escape : c = '\\'
  · subst escape
    cases rest with
    | nil => decide
    | cons d rest =>
      rw [nameExtent_escape]
      exact Nat.succ_ne_zero _
  · rw [nameExtent_char rest named escape]
    exact Nat.succ_ne_zero _

theorem nameExtent_stop {c : Char} {rest : List Char} (other : isNameChar c = false)
    (closed : c = '@' → rest.head? ≠ some '\x7b') : nameExtent false (c :: rest) = 0 := by
  have plain : c ≠ '\\' := by
    rintro rfl
    revert other
    decide
  rw [nameExtent.eq_def]
  simp [other, plain]
  exact closed

theorem commentExtent_end (rest : List Char) : commentExtent ('*' :: '/' :: rest) = ⟨true, 2⟩ := by
  rw [commentExtent]

theorem commentExtent_cons {c : Char} {rest : List Char} (inside : ¬(c = '*' ∧ rest.head? = some '/')) :
    commentExtent (c :: rest) = (commentExtent rest).add 1 := by
  rw [commentExtent.eq_def]
  split
  · rename_i same
    cases same
  · rename_i same
    cases same
    exact absurd ⟨rfl, rfl⟩ inside
  · rename_i same
    cases same
    rfl

theorem stringExtent_quote (quote : Char) (rest : List Char) : stringExtent quote (quote :: rest) = ⟨true, 1⟩ := by
  rw [stringExtent.eq_def]
  simp

theorem stringExtent_escape {quote : Char} (other : '\\' ≠ quote) (d : Char) (rest : List Char) :
    stringExtent quote ('\\' :: d :: rest) = (stringExtent quote rest).add 2 := by
  rw [stringExtent.eq_def]
  simp [other]

theorem stringExtent_char {quote c : Char} (other : c ≠ quote) (line : c ≠ '\n') (plain : c ≠ '\\') (rest : List Char) :
    stringExtent quote (c :: rest) = (stringExtent quote rest).add 1 := by
  rw [stringExtent.eq_def]
  simp [other, line, plain]

theorem digitsExtent_cons {seen : Bool} {c : Char} {rest : List Char} :
    digitsExtent seen (c :: rest) =
      if c.isDigit then digitsExtent seen rest + 1
      else if c == '.' && !seen && rest.head?.any Char.isDigit then digitsExtent true rest + 1
      else 0 := by
  rw [digitsExtent]

def unitExtent : List Char → Kind × Nat
  | [] => (.number, 0)
  | c :: rest =>
    if c == '%' then (.percentage, 1)
    else if isAsciiLetter c then (.dimension, 1 + (rest.takeWhile isAsciiLetter).length)
    else (.number, 0)

theorem numberExtent_eq {own after : List Char} (digits : digitsExtent false (own ++ after) = own.length) :
    numberExtent (own ++ after) = ((unitExtent after).1, own.length + (unitExtent after).2) := by
  rw [numberExtent, digits, List.drop_left]
  cases after with
  | nil => rfl
  | cons c rest =>
    simp only [unitExtent]
    split
    · rfl
    · split
      · rw [Nat.add_assoc]
      · rfl

end LessCss.Lexeme
