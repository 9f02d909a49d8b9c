import LessCss.Token.Cursor

/-! The tokens of a text. A scan either reaches the end of the text or stops at
a token that lacks its end; the tokens before it are kept in both cases. -/

set_option autoImplicit false

namespace LessCss

namespace Cursor

open Lexeme
open Text (isBlank)

/-- A token with the cursor behind it, or the beginning of one that lacks its end. -/
inductive Found where
  | token (kind : Kind) (text : List Char) (after : Cursor)
  | unclosed (expected : Expectation) (text : List Char)

def Found.ofTaken (kind : Kind) (taken : Taken) : Found := .token kind taken.text taken.cursor

def Found.ofClosed (kind : Kind) (expected : Expectation) (taken : Taken) : Found :=
  if taken.closed then .ofTaken kind taken else .unclosed expected taken.text

def readAt (cursor : Cursor) : Found :=
  if cursor.peekNth 1 == some '\x7b' then .ofTaken .identifier cursor.readName
  else if (cursor.peekNth 1).any fun d => isNameStart d || d == '-' then
    .ofTaken .atKeyword (cursor.advance.readName.behind ['@'])
  else .token .other ['@'] cursor.advance

/-- A name, or a url if the name says so and a parenthesis follows. -/
def readNameOrUrl (cursor : Cursor) : Found :=
  let name := cursor.readName
  if name.text.map Char.toLower == ['u', 'r', 'l'] && name.cursor.peek == some '(' then
    .ofClosed .url .urlEnd ((name.cursor.readUrl 0).behind name.text)
  else .ofTaken .identifier name

/-- Reads the token that begins with `c`. `last` is the token before it, comments left out. -/
def readToken (last : Option Token) (c : Char) (cursor : Cursor) : Found :=
  let next := cursor.peekNth 1
  if isBlank c then .ofTaken .whitespace (cursor.readWhile isBlank)
  else if c == '/' && next == some '*' then .ofClosed .comment .commentEnd cursor.readBlockComment
  else if c == '/' && next == some '/' then .ofTaken .comment (cursor.readWhile (· != '\n'))
  else if c == '"' || c == '\'' then .ofClosed .string .stringEnd cursor.readString
  else if c == '@' then cursor.readAt
  else if c == '#' && next.any isNameChar then .ofTaken .hash (cursor.advance.readName.behind ['#'])
  else if startsNumber cursor.rest then .ofTaken cursor.readNumber.1 cursor.readNumber.2
  else if c == '-' && startsNumber cursor.advance.rest && allowsSign last then
    .ofTaken cursor.readNumber.1 cursor.readNumber.2
  else if c == '-' && (next.any (fun d => isNameStart d || d == '-') ||
      (next == some '@' && cursor.peekNth 2 == some '\x7b')) then
    .ofTaken .identifier cursor.readName
  else if isNameStart c then cursor.readNameOrUrl
  else .token (markKind c) [c] cursor.advance

/-! ### Progress -/

variable {cursor : Cursor} {c : Char}

/-- A token has characters, all of which the cursor has moved over. Where the end is
missing, the text is what the cursor has moved over so far. -/
def Finds (cursor : Cursor) : Found → Prop
  | .token _ text after => text ≠ [] ∧ cursor.Moves text after
  | .unclosed _ text => text ≠ [] ∧ ∃ after, cursor.Moves text after

theorem finds_ofTaken {kind : Kind} {taken : Taken} (some_ : taken.text ≠ []) (covers : cursor.Covers taken) :
    cursor.Finds (.ofTaken kind taken) :=
  ⟨some_, covers⟩

theorem finds_ofClosed {kind : Kind} {expected : Expectation} {taken : Taken} (some_ : taken.text ≠ [])
    (covers : cursor.Covers taken) : cursor.Finds (.ofClosed kind expected taken) := by
  unfold Found.ofClosed
  split
  · exact finds_ofTaken some_ covers
  · exact ⟨some_, _, covers⟩

theorem finds_readAt (next : cursor.peek = some '@') : cursor.Finds cursor.readAt := by
  unfold readAt
  split
  · rename_i hole
    exact finds_ofTaken (readName_ne_nil next (.inl ⟨rfl, beq_iff_eq.mp hole⟩)) (covers_readName cursor)
  · split
    · exact finds_ofTaken (behind_ne_nil _ _ _) ((moves_advance next).covers (covers_readName _))
    · exact ⟨List.cons_ne_nil _ _, moves_advance next⟩

theorem finds_readNameOrUrl (next : cursor.peek = some c) (named : isNameChar c = true) :
    cursor.Finds cursor.readNameOrUrl := by
  have some_ : cursor.readName.text ≠ [] := readName_ne_nil next (.inr named)
  unfold readNameOrUrl
  dsimp only
  split
  · exact finds_ofClosed (List.append_ne_nil_of_left_ne_nil some_ _) (Moves.covers (covers_readName cursor) (covers_readUrl 0 _))
  · exact finds_ofTaken some_ (covers_readName cursor)

theorem finds_readToken (next : cursor.peek = some c) (last : Option Token) : cursor.Finds (cursor.readToken last c) := by
  unfold readToken
  dsimp only
  split
  · rename_i blank
    exact finds_ofTaken (readWhile_ne_nil next blank) (covers_readWhile _ cursor)
  split
  · rename_i comment
    simp only [Bool.and_eq_true, beq_iff_eq] at comment
    obtain ⟨rfl, second⟩ := comment
    exact finds_ofClosed (behind_ne_nil _ _ _) (covers_readBlockComment next second)
  split
  · rename_i comment
    simp only [Bool.and_eq_true, beq_iff_eq] at comment
    obtain ⟨rfl, _⟩ := comment
    exact finds_ofTaken (readWhile_ne_nil next rfl) (covers_readWhile _ cursor)
  split
  · refine finds_ofClosed ?_ (covers_readString cursor)
    rw [readString, next]
    exact behind_ne_nil _ _ _
  split
  · rename_i at_
    cases beq_iff_eq.mp at_
    exact finds_readAt next
  split
  · rename_i hash
    simp only [Bool.and_eq_true, beq_iff_eq] at hash
    obtain ⟨rfl, _⟩ := hash
    exact finds_ofTaken (behind_ne_nil _ _ _) ((moves_advance next).covers (covers_readName _))
  split
  · rename_i number
    exact finds_ofTaken (readNumber_ne_nil next (.inl number)) (covers_readNumber cursor)
  split
  · rename_i signed
    simp only [Bool.and_eq_true, beq_iff_eq] at signed
    exact finds_ofTaken (readNumber_ne_nil next (.inr signed.1.1)) (covers_readNumber cursor)
  split
  · rename_i name
    simp only [Bool.and_eq_true, beq_iff_eq] at name
    obtain ⟨rfl, _⟩ := name
    exact finds_ofTaken (readName_ne_nil next (.inr (by decide))) (covers_readName cursor)
  split
  · rename_i name
    exact finds_readNameOrUrl next (isNameChar_of_isNameStart name)
  · exact ⟨List.cons_ne_nil _ _, moves_advance next⟩

theorem length_of_readToken {last : Option Token} {kind : Kind} {text : List Char} {after : Cursor}
    (next : cursor.peek = some c) (read : cursor.readToken last c = .token kind text after) :
    after.rest.length < cursor.rest.length := by
  have found := finds_readToken next last
  rw [read] at found
  exact found.2.length found.1

end Cursor

/-- The tokens read, and the place of the end or the fault that stopped the reading. -/
structure Scan where
  tokens : List Token
  ending : Except Error Position

namespace Scan

/-- Comments are not seen by the token after them. -/
def lastSeen (last : Option Token) (token : Token) : Option Token :=
  if token.kind = .comment then last else some token

def run (last : Option Token) (cursor : Cursor) : Scan :=
  match _next : cursor.peek with
  | none => ⟨[], .ok cursor.place⟩
  | some c =>
    match _read : cursor.readToken last c with
    | .unclosed expected text => ⟨[], .error (.parse cursor.place (String.ofList text) expected)⟩
    | .token kind text after =>
      let token : Token := ⟨kind, String.ofList text, cursor.place⟩
      let scan := run (lastSeen last token) after
      { scan with tokens := token :: scan.tokens }
termination_by cursor.rest.length
decreasing_by exact Cursor.length_of_readToken _next _read

def ofText (source text : String) : Scan :=
  run none ⟨text.toList, .start source⟩

def complete (scan : Scan) : Except Error (List Token) :=
  scan.ending.map fun _ => scan.tokens

/-- The tokens that a reader with one token of look-ahead hands out: it notices
a fault before it gives away the token in front of it. -/
def delivered (scan : Scan) : List Token :=
  match scan.ending with
  | .ok _ => scan.tokens
  | .error _ => scan.tokens.dropLast

end Scan

end LessCss
