import LessCss.Token.Scan
import LessCss.Token.Tokens

/-! A scan loses nothing and places every token exactly.

A place is given twice: by a scan, which moves on character by character, and
by counting, which looks at the whole text before the place. The main statement
says that every token and every fault of a scan stands at the counted place. -/

set_option autoImplicit false

namespace LessCss

open List

namespace Tokens

@[simp] theorem text_nil : text [] = "" := by
  simp [text]

@[simp] theorem text_cons (token : Token) (rest : Tokens) : text (token :: rest) = token.text ++ text rest := by
  simp [text]

end Tokens

namespace Position

/-- The line behind a text that begins a source: one more than it has newlines. -/
def lineBehind (before : List Char) : Nat := 1 + before.count '\n'

/-- The column there: one more than the text has characters after the last newline. -/
def columnBehind (before : List Char) : Nat := 1 + (before.reverse.takeWhile (· != '\n')).length

/-- The place behind a text that begins a source, with what 32 bits hold of its numbers. -/
def counted (source : String) (before : List Char) : Position :=
  ⟨source, .ofNat (lineBehind before), .ofNat (columnBehind before)⟩

theorem counted_snoc (source : String) (before : List Char) (c : Char) :
    counted source (before ++ [c]) = (counted source before).advance c := by
  by_cases newline : c = '\n'
  · subst newline
    simp [counted, lineBehind, columnBehind, advance, ← Nat.add_assoc, UInt32.ofNat_add]
  · simp [counted, lineBehind, columnBehind, advance, newline, ← Nat.add_assoc, UInt32.ofNat_add]

/-- In a text that is shorter than 2³² characters by two or more no number is cut. -/
theorem counted_toNat (source : String) {before : List Char} (short : before.length + 1 < UInt32.size) :
    (counted source before).line.toNat = lineBehind before ∧
      (counted source before).column.toNat = columnBehind before := by
  have lines : before.count '\n' ≤ before.length := count_le_length
  have columns := (takeWhile_sublist (· != '\n') (l := before.reverse)).length_le
  rw [length_reverse] at columns
  simp only [counted, UInt32.toNat_ofNat', lineBehind, columnBehind]
  unfold UInt32.size at short
  omega

theorem after_counted (source : String) (before cs : List Char) :
    (counted source before).after cs = counted source (before ++ cs) := by
  induction cs generalizing before with
  | nil => simp [after]
  | cons c rest ih =>
    have moved : (counted source before).after (c :: rest) =
        (counted source (before ++ [c])).after rest := by
      simp only [after, foldl_cons, counted_snoc]
    rw [moved, ih, List.append_assoc, singleton_append]

end Position

namespace Scan

/-- What a scan of `cs` gives when the text `before` stands in front of it. -/
structure ExactAfter (source : String) (before cs : List Char) (scan : Scan) : Prop where
  /-- A token has at least one character. -/
  nonempty : ∀ token ∈ scan.tokens, token.text ≠ ""
  /-- A token stands behind the tokens in front of it. -/
  placed : ∀ first token rest, scan.tokens = first ++ token :: rest →
    token.position = .counted source (before ++ (Tokens.text first).toList)
  /-- At the end all characters are in the tokens. A fault shows characters that
  follow the tokens, and stands where those begin. -/
  covered :
    match scan.ending with
    | .ok place => (Tokens.text scan.tokens).toList = cs ∧ place = .counted source (before ++ cs)
    | .error error => ∃ found expected, found ≠ "" ∧
        error = .parse (.counted source (before ++ (Tokens.text scan.tokens).toList)) found expected ∧
        (Tokens.text scan.tokens).toList ++ found.toList <+: cs

/-- One token in front of an exact scan. -/
theorem ExactAfter.cons {source : String} {before text cs : List Char} {scan : Scan} {kind : Kind}
    (exact : ExactAfter source (before ++ text) cs scan) (some : text ≠ []) :
    ExactAfter source before (text ++ cs)
      { scan with
        tokens := ⟨kind, String.ofList text, .counted source before⟩ :: scan.tokens } where
  nonempty token member := by
    rcases mem_cons.mp member with same | member
    · subst same
      intro empty
      exact some (by simpa using congrArg String.toList empty)
    · exact exact.nonempty token member
  placed first token rest split := by
    cases first with
    | nil =>
      obtain ⟨same, _⟩ := List.cons.inj split
      subst same
      simp
    | cons head first =>
      obtain ⟨same, tail⟩ := List.cons.inj split
      subst same
      rw [exact.placed first token rest tail]
      simp
  covered := by
    have covered := exact.covered
    cases ending : scan.ending with
    | ok place =>
      simp only [ending] at covered ⊢
      obtain ⟨all, place⟩ := covered
      exact ⟨by simp [all], by rw [place, List.append_assoc]⟩
    | error error =>
      simp only [ending] at covered ⊢
      obtain ⟨found, expected, shown, same, ⟨unread, split⟩⟩ := covered
      refine ⟨found, expected, shown, ?_, unread, ?_⟩
      · rw [same]
        simp
      · rw [← split]
        simp

/-- The induction follows the scan: each reader has moved the cursor over what it put together. -/
theorem run_exactAfter (source : String) (before : List Char) (last : Option Token) (cursor : Cursor)
    (here : cursor.place = .counted source before) : ExactAfter source before cursor.rest (run last cursor) := by
  fun_induction run last cursor generalizing before with
  | case1 last cursor ended =>
    rw [Cursor.rest_of_end ended]
    exact ⟨by simp, by simp, by simp [here]⟩
  | case2 last cursor c next expected text read =>
    have found := Cursor.finds_readToken next last
    rw [read] at found
    obtain ⟨some_, after, moves⟩ := found
    refine ⟨by simp, by simp, String.ofList text, expected, ?_, by simp [here], after.rest, ?_⟩
    · intro empty
      exact some_ (by simpa using congrArg String.toList empty)
    · simp [moves.rest]
  | case3 last cursor c next kind text after read token scan ih =>
    have found := Cursor.finds_readToken next last
    rw [read] at found
    obtain ⟨some_, moves⟩ := found
    have there : after.place = .counted source (before ++ text) := by
      rw [moves.place, here, Position.after_counted]
    have exact : ExactAfter source (before ++ text) after.rest scan := ih (before ++ text) there
    have placed : token = ⟨kind, String.ofList text, .counted source before⟩ := by rw [← here]
    rw [moves.rest, placed]
    exact exact.cons some_

/-- What is handed out, and the one token that a fault behind it holds back. -/
theorem delivered_append_lost (scan : Scan) :
    ∃ lost : Option Token, scan.tokens = scan.delivered ++ lost.toList := by
  unfold delivered
  cases scan.ending with
  | ok place => exact ⟨none, by simp⟩
  | error error =>
    refine ⟨scan.tokens.getLast?, ?_⟩
    cases empty : scan.tokens.getLast? with
    | none => simp [List.getLast?_eq_none_iff.mp empty]
    | some token =>
      obtain ⟨front, split⟩ := List.getLast?_eq_some_iff.mp empty
      simp [split]

end Scan

end LessCss
