import LessCss.Error
import LessCss.Text

/-! What the first characters of a token tell about it; a cursor over the characters that
are left, and the readers that move it on. A reader puts the text of its token together
from what it has looked at, and moves the cursor apart from that. That the two stay in
step is `Moves`. -/

set_option autoImplicit false

namespace LessCss

namespace Lexeme

open Text (isBlank)

def isAsciiLetter (c : Char) : Bool := c.isAlpha

/-- Letters, the underscore, the backslash, and every character outside ASCII. -/
def isNameStart (c : Char) : Bool :=
  c.isAlpha || c == '_' || c == '\\' || 128 ≤ c.toNat

def isNameChar (c : Char) : Bool :=
  c.isAlphanum || c == '-' || c == '_' || c == '\\' || 128 ≤ c.toNat

theorem isNameChar_of_isNameStart {c : Char} (name : isNameStart c = true) : isNameChar c = true := by
  simp only [isNameStart, isNameChar, Char.isAlphanum, Bool.or_eq_true] at name ⊢
  grind

def startsNumber : List Char → Bool
  | c :: rest => c.isDigit || (c == '.' && rest.head?.any Char.isDigit)
  | [] => false

/-- Whether a sign after this token belongs to a number: at the start of a text,
after a blank or an opening mark, and after a separator or an operator. -/
def allowsSign : Option Token → Bool
  | none => true
  | some last =>
    match last.kind with
    | .whitespace | .parenOpen | .colon | .delimiter | .braceOpen | .bracketOpen => true
    | .other => [",", "*", "/", "+", "=", "<", ">"].contains last.text
    | _ => false

def markKind (c : Char) : Kind :=
  if c == ':' then .colon
  else if c == ';' then .delimiter
  else if c == '(' then .parenOpen
  else if c == ')' then .parenClose
  else if c == '\x7b' then .braceOpen
  else if c == '\x7d' then .braceClose
  else if c == '[' then .bracketOpen
  else if c == ']' then .bracketClose
  else .other

end Lexeme

open List

/-- The characters that are left, and the place of the first of them. -/
structure Cursor where
  rest : List Char
  place : Position

/-- What a reader has put together, and the cursor behind it. A token that lacks its end is not closed. -/
structure Taken where
  text : List Char
  closed : Bool
  cursor : Cursor

def Taken.behind (text : List Char) (taken : Taken) : Taken := { taken with text := text ++ taken.text }

namespace Cursor

open Lexeme
open Text (isBlank)

def peek (cursor : Cursor) : Option Char := cursor.rest.head?

def peekNth (cursor : Cursor) (n : Nat) : Option Char := cursor.rest[n]?

/-- At the end of the text the cursor stays. -/
def advance (cursor : Cursor) : Cursor :=
  match cursor.rest with
  | [] => cursor
  | c :: rest => ⟨rest, cursor.place.advance c⟩

def stop (cursor : Cursor) : Taken := ⟨[], true, cursor⟩

def breakOff (cursor : Cursor) : Taken := ⟨[], false, cursor⟩

/-! ### From one cursor to another -/

/-- Between two cursors stands a text, and the place has moved over all of it. -/
structure Moves (before : Cursor) (text : List Char) (after : Cursor) : Prop where
  rest : before.rest = text ++ after.rest
  place : after.place = before.place.after text

def Covers (cursor : Cursor) (taken : Taken) : Prop := cursor.Moves taken.text taken.cursor

variable {cursor : Cursor} {c : Char}

theorem moves_advance (next : cursor.peek = some c) : cursor.Moves [c] cursor.advance := by
  obtain ⟨rest, place⟩ := cursor
  cases rest with
  | nil => cases next
  | cons d rest =>
    cases next
    exact ⟨rfl, rfl⟩

theorem rest_of_peek (next : cursor.peek = some c) : cursor.rest = c :: cursor.advance.rest :=
  (moves_advance next).rest

theorem rest_of_end (ended : cursor.peek = none) : cursor.rest = [] :=
  List.head?_eq_none_iff.mp ended

theorem length_advance (next : cursor.peek = some c) : cursor.advance.rest.length < cursor.rest.length := by
  rw [rest_of_peek next]
  exact Nat.lt_succ_self _

theorem length_advance_le (cursor : Cursor) : cursor.advance.rest.length ≤ cursor.rest.length := by
  cases next : cursor.peek with
  | none =>
    simp [advance, rest_of_end next]
  | some c => exact Nat.le_of_lt (length_advance next)

theorem moves_refl (cursor : Cursor) : cursor.Moves [] cursor := ⟨rfl, rfl⟩

theorem Moves.trans {between after : Cursor} {first second : List Char} (left : cursor.Moves first between)
    (right : between.Moves second after) : cursor.Moves (first ++ second) after where
  rest := by rw [left.rest, right.rest, List.append_assoc]
  place := by rw [right.place, left.place, Position.after, Position.after, Position.after, foldl_append]

theorem Moves.length {after : Cursor} {text : List Char} (moves : cursor.Moves text after) (some_ : text ≠ []) :
    after.rest.length < cursor.rest.length := by
  rw [moves.rest, length_append]
  have := length_pos_iff.mpr some_
  omega

theorem covers_stop (cursor : Cursor) : cursor.Covers cursor.stop := moves_refl cursor

theorem covers_breakOff (cursor : Cursor) : cursor.Covers cursor.breakOff := moves_refl cursor

theorem Moves.covers {between : Cursor} {text : List Char} {taken : Taken} (moves : cursor.Moves text between)
    (covers : between.Covers taken) : cursor.Covers (taken.behind text) :=
  moves.trans covers

theorem peekNth_one (cursor : Cursor) : cursor.peekNth 1 = cursor.advance.peek := by
  unfold peekNth advance peek
  cases left : cursor.rest with
  | nil => simp [left]
  | cons c rest => simp [List.head?_eq_getElem?]

theorem behind_ne_nil (c : Char) (text : List Char) (taken : Taken) : (taken.behind (c :: text)).text ≠ [] :=
  cons_ne_nil c _

/-! ### Readers -/

def readWhile (test : Char → Bool) (cursor : Cursor) : Taken :=
  match _next : cursor.peek with
  | none => cursor.stop
  | some c => if test c then (readWhile test cursor.advance).behind [c] else cursor.stop
termination_by cursor.rest.length
decreasing_by exact length_advance _next

theorem covers_readWhile (test : Char → Bool) (cursor : Cursor) : cursor.Covers (cursor.readWhile test) := by
  fun_induction readWhile test cursor with
  | case1 cursor => exact covers_stop cursor
  | case2 cursor c next _ ih => exact (moves_advance next).covers ih
  | case3 cursor => exact covers_stop cursor

theorem readWhile_ne_nil {test : Char → Bool} (next : cursor.peek = some c) (passes : test c = true) :
    (cursor.readWhile test).text ≠ [] := by
  rw [readWhile]
  split
  · simp_all
  · rename_i d next'
    cases next.symm.trans next'
    rw [if_pos passes]
    exact behind_ne_nil _ _ _

/-- The rest of a block comment after its opening mark. -/
def readCommentEnd (cursor : Cursor) : Taken :=
  match _next : cursor.peek with
  | none => cursor.breakOff
  | some c =>
    if c == '*' && cursor.peekNth 1 == some '/' then cursor.advance.advance.stop.behind ['*', '/']
    else (readCommentEnd cursor.advance).behind [c]
termination_by cursor.rest.length
decreasing_by exact length_advance _next

theorem covers_readCommentEnd (cursor : Cursor) : cursor.Covers cursor.readCommentEnd := by
  fun_induction readCommentEnd cursor with
  | case1 cursor => exact covers_breakOff cursor
  | case2 cursor c next ends =>
    simp only [Bool.and_eq_true, beq_iff_eq, peekNth_one] at ends
    obtain ⟨rfl, second⟩ := ends
    exact ((moves_advance next).trans (moves_advance second)).covers (covers_stop _)
  | case3 cursor c next _ ih => exact (moves_advance next).covers ih

def readBlockComment (cursor : Cursor) : Taken :=
  cursor.advance.advance.readCommentEnd.behind ['/', '*']

theorem covers_readBlockComment (first : cursor.peek = some '/') (second : cursor.peekNth 1 = some '*') :
    cursor.Covers cursor.readBlockComment := by
  rw [peekNth_one] at second
  exact ((moves_advance first).trans (moves_advance second)).covers (covers_readCommentEnd _)

/-- The rest of a string after its opening quote. A newline ends it unclosed
unless a backslash stands before the newline. -/
def readStringEnd (quote : Char) (cursor : Cursor) : Taken :=
  match _next : cursor.peek with
  | none => cursor.breakOff
  | some c =>
    if c == quote then cursor.advance.stop.behind [c]
    else if c == '\n' then cursor.advance.breakOff.behind [c]
    else if c == '\\' then
      match cursor.advance.peek with
      | none => cursor.advance.breakOff.behind [c]
      | some escaped => (readStringEnd quote cursor.advance.advance).behind [c, escaped]
    else (readStringEnd quote cursor.advance).behind [c]
termination_by cursor.rest.length
decreasing_by
  · exact Nat.lt_of_le_of_lt (length_advance_le _) (length_advance _next)
  · exact length_advance _next

def readString (cursor : Cursor) : Taken :=
  match cursor.peek with
  | none => cursor.breakOff
  | some quote => (cursor.advance.readStringEnd quote).behind [quote]

theorem covers_readStringEnd (quote : Char) (cursor : Cursor) : cursor.Covers (cursor.readStringEnd quote) := by
  fun_induction readStringEnd quote cursor with
  | case1 cursor => exact covers_breakOff cursor
  | case2 cursor c next => exact (moves_advance next).covers (covers_stop _)
  | case3 cursor c next => exact (moves_advance next).covers (covers_breakOff _)
  | case4 cursor c next => exact (moves_advance next).covers (covers_breakOff _)
  | case5 cursor c next _ _ _ escaped second ih =>
    exact ((moves_advance next).trans (moves_advance second)).covers ih
  | case6 cursor c next _ _ _ ih => exact (moves_advance next).covers ih

theorem covers_readString (cursor : Cursor) : cursor.Covers cursor.readString := by
  unfold readString
  split
  · exact covers_breakOff cursor
  · rename_i next
    exact (moves_advance next).covers (covers_readStringEnd _ _)

theorem length_readString (next : cursor.peek = some c) :
    cursor.readString.cursor.rest.length < cursor.rest.length := by
  refine (covers_readString cursor).length ?_
  rw [readString, next]
  exact cons_ne_nil _ _

/-- The rest of a url from its opening parenthesis on. Parentheses nest, and
strings inside hide theirs. -/
def readUrl (depth : Nat) (cursor : Cursor) : Taken :=
  match _next : cursor.peek with
  | none => cursor.breakOff
  | some c =>
    if c == '"' || c == '\'' then
      let quoted := cursor.readString
      if quoted.closed then (readUrl depth quoted.cursor).behind quoted.text else quoted
    else if c == '(' then (readUrl (depth + 1) cursor.advance).behind [c]
    else if c == ')' then
      if depth ≤ 1 then cursor.advance.stop.behind [c] else (readUrl (depth - 1) cursor.advance).behind [c]
    else (readUrl depth cursor.advance).behind [c]
termination_by cursor.rest.length
decreasing_by
  · exact length_readString _next
  all_goals exact length_advance _next

theorem covers_readUrl (depth : Nat) (cursor : Cursor) : cursor.Covers (cursor.readUrl depth) := by
  fun_induction readUrl depth cursor with
  | case1 depth cursor => exact covers_breakOff cursor
  | case2 depth cursor c next _ quoted _ ih => exact Moves.covers (covers_readString cursor) ih
  | case3 depth cursor c next _ quoted => exact covers_readString cursor
  | case4 depth cursor c next _ _ ih => exact (moves_advance next).covers ih
  | case5 depth cursor c next => exact (moves_advance next).covers (covers_stop _)
  | case6 depth cursor c next _ _ _ _ ih => exact (moves_advance next).covers ih
  | case7 depth cursor c next _ _ _ ih => exact (moves_advance next).covers ih

/-- An interpolation up to its closing brace. -/
def readHole (cursor : Cursor) : Taken :=
  match _next : cursor.peek with
  | none => cursor.stop
  | some c => if c == '\x7d' then cursor.advance.stop.behind [c] else (readHole cursor.advance).behind [c]
termination_by cursor.rest.length
decreasing_by exact length_advance _next

theorem covers_readHole (cursor : Cursor) : cursor.Covers cursor.readHole := by
  fun_induction readHole cursor with
  | case1 cursor => exact covers_stop cursor
  | case2 cursor c next => exact (moves_advance next).covers (covers_stop _)
  | case3 cursor c next _ ih => exact (moves_advance next).covers ih

theorem readHole_ne_nil (next : cursor.peek = some c) : cursor.readHole.text ≠ [] := by
  rw [readHole]
  split
  · simp_all
  · split
    all_goals exact cons_ne_nil _ _

theorem length_readHole (next : cursor.peek = some c) :
    cursor.readHole.cursor.rest.length < cursor.rest.length :=
  (covers_readHole cursor).length (readHole_ne_nil next)

/-- A name. A backslash takes the next character with it, and an interpolation is
taken whole. -/
def readName (cursor : Cursor) : Taken :=
  match _next : cursor.peek with
  | none => cursor.stop
  | some c =>
    if c == '@' && cursor.peekNth 1 == some '\x7b' then
      let hole := cursor.readHole
      (readName hole.cursor).behind hole.text
    else if c == '\\' then
      match cursor.advance.peek with
      | none => cursor.advance.stop.behind [c]
      | some escaped => (readName cursor.advance.advance).behind [c, escaped]
    else if isNameChar c then (readName cursor.advance).behind [c]
    else cursor.stop
termination_by cursor.rest.length
decreasing_by
  · exact length_readHole _next
  · exact Nat.lt_of_le_of_lt (length_advance_le _) (length_advance _next)
  · exact length_advance _next

theorem covers_readName (cursor : Cursor) : cursor.Covers cursor.readName := by
  fun_induction readName cursor with
  | case1 cursor => exact covers_stop cursor
  | case2 cursor c next _ hole ih => exact Moves.covers (covers_readHole cursor) ih
  | case3 cursor c next => exact (moves_advance next).covers (covers_stop _)
  | case4 cursor c next _ _ escaped second ih =>
    exact ((moves_advance next).trans (moves_advance second)).covers ih
  | case5 cursor c next _ _ _ ih => exact (moves_advance next).covers ih
  | case6 cursor => exact covers_stop cursor

theorem readName_ne_nil (next : cursor.peek = some c)
    (named : c = '@' ∧ cursor.peekNth 1 = some '\x7b' ∨ isNameChar c = true) : cursor.readName.text ≠ [] := by
  rw [readName]
  split
  · simp_all
  rename_i d next'
  cases next.symm.trans next'
  split
  · dsimp only
    exact append_ne_nil_of_left_ne_nil (readHole_ne_nil next) _
  rename_i plain
  split
  · split
    all_goals exact behind_ne_nil _ _ _
  split
  · exact behind_ne_nil _ _ _
  · simp_all

/-- The digits of a number with at most one point, which has to stand before a digit. -/
def readDigits (pointSeen : Bool) (cursor : Cursor) : Taken :=
  match _next : cursor.peek with
  | none => cursor.stop
  | some c =>
    if c.isDigit then (readDigits pointSeen cursor.advance).behind [c]
    else if c == '.' && !pointSeen && (cursor.peekNth 1).any Char.isDigit then
      (readDigits true cursor.advance).behind [c]
    else cursor.stop
termination_by cursor.rest.length
decreasing_by all_goals exact length_advance _next

theorem covers_readDigits (pointSeen : Bool) (cursor : Cursor) : cursor.Covers (cursor.readDigits pointSeen) := by
  fun_induction readDigits pointSeen cursor with
  | case1 pointSeen cursor => exact covers_stop cursor
  | case2 pointSeen cursor c next _ ih => exact (moves_advance next).covers ih
  | case3 pointSeen cursor c next _ _ ih => exact (moves_advance next).covers ih
  | case4 pointSeen cursor => exact covers_stop cursor

theorem readDigits_ne_nil (starts : startsNumber cursor.rest = true) : (cursor.readDigits false).text ≠ [] := by
  rw [readDigits]
  split
  · rename_i none_
    rw [List.head?_eq_none_iff.mp none_] at starts
    cases starts
  rename_i c next
  rw [rest_of_peek next, startsNumber, ← peek, ← peekNth_one] at starts
  split
  · exact behind_ne_nil _ _ _
  split
  · exact behind_ne_nil _ _ _
  · simp_all

/-- A unit behind digits, and the kind of number that it makes. -/
def readUnit (cursor : Cursor) : Kind × Taken :=
  match cursor.peek with
  | none => (.number, cursor.stop)
  | some c =>
    if c == '%' then (.percentage, cursor.advance.stop.behind ['%'])
    else if isAsciiLetter c then (.dimension, cursor.readWhile isAsciiLetter)
    else (.number, cursor.stop)

theorem covers_readUnit (cursor : Cursor) : cursor.Covers cursor.readUnit.2 := by
  unfold readUnit
  split
  · exact covers_stop cursor
  · rename_i c next
    split
    · rename_i percent
      cases beq_iff_eq.mp percent
      exact (moves_advance next).covers (covers_stop _)
    · split
      · exact covers_readWhile _ cursor
      · exact covers_stop cursor

def readSign (cursor : Cursor) : Taken :=
  if cursor.peek == some '-' then cursor.advance.stop.behind ['-'] else cursor.stop

theorem covers_readSign (cursor : Cursor) : cursor.Covers cursor.readSign := by
  unfold readSign
  split
  · rename_i signed
    exact (moves_advance (beq_iff_eq.mp signed)).covers (covers_stop _)
  · exact covers_stop cursor

def readNumber (cursor : Cursor) : Kind × Taken :=
  let sign := cursor.readSign
  let digits := sign.cursor.readDigits false
  let unit := digits.cursor.readUnit
  (unit.1, (unit.2.behind digits.text).behind sign.text)

theorem covers_readNumber (cursor : Cursor) : cursor.Covers cursor.readNumber.2 :=
  Moves.covers (covers_readSign cursor) (Moves.covers (covers_readDigits false _) (covers_readUnit _))

theorem readNumber_ne_nil (next : cursor.peek = some c) (starts : startsNumber cursor.rest = true ∨ c = '-') :
    cursor.readNumber.2.text ≠ [] := by
  unfold readNumber readSign
  split
  · exact cons_ne_nil _ _
  rename_i unsigned
  have starts := starts.resolve_right fun minus => unsigned (by simp [next, minus])
  exact append_ne_nil_of_left_ne_nil (readDigits_ne_nil starts) _

end Cursor

end LessCss
