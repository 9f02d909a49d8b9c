import LessCss.Proofs.Token.Extents
import LessCss.Token.Scan

/-! The readers of tokens and the extents of tokens agree. Main statement: `reading_readToken`.
A scan therefore cuts a text into tokens at their extents, and proofs about scans need not
look at cursors. -/

set_option autoImplicit false

namespace LessCss

open List Taken Cursor

def Taken.extent (taken : Taken) : Lexeme.Extent := ⟨taken.closed, taken.text.length⟩

@[simp] theorem Taken.extent_behind (taken : Taken) (text : List Char) :
    (taken.behind text).extent = taken.extent.add text.length := by
  simp [extent, behind, Lexeme.Extent.add, Nat.add_comm]

namespace Cursor

open Lexeme
open Text (isBlank)

variable {cursor : Cursor} {c : Char}

theorem text_readWhile (test : Char → Bool) (cursor : Cursor) :
    (cursor.readWhile test).text = cursor.rest.takeWhile test := by
  fun_induction readWhile test cursor with
  | case1 cursor ended =>
    rw [rest_of_end ended]
    rfl
  | case2 cursor c next passes ih =>
    rw [rest_of_peek next, takeWhile_cons_of_pos passes, ← ih]
    rfl
  | case3 cursor c next fails =>
    rw [rest_of_peek next, takeWhile_cons_of_neg fails]
    rfl

theorem extent_readCommentEnd (cursor : Cursor) : cursor.readCommentEnd.extent = commentExtent cursor.rest := by
  fun_induction readCommentEnd cursor with
  | case1 cursor ended =>
    rw [rest_of_end ended]
    rfl
  | case2 cursor c next ends =>
    simp only [Bool.and_eq_true, beq_iff_eq, peekNth_one] at ends
    obtain ⟨rfl, second⟩ := ends
    rw [rest_of_peek next, rest_of_peek second, commentExtent_end]
    rfl
  | case3 cursor c next inside ih =>
    simp only [Bool.and_eq_true, beq_iff_eq, peekNth_one] at inside
    rw [rest_of_peek next, commentExtent_cons inside, extent_behind, ih]
    rfl

theorem extent_readStringEnd (quote : Char) (cursor : Cursor) :
    (cursor.readStringEnd quote).extent = stringExtent quote cursor.rest := by
  fun_induction readStringEnd quote cursor with
  | case1 cursor ended =>
    rw [rest_of_end ended]
    rfl
  | case2 cursor c next ends =>
    rw [rest_of_peek next, beq_iff_eq.mp ends, stringExtent_quote]
    rfl
  | case3 cursor c next other line =>
    rw [rest_of_peek next, stringExtent.eq_def]
    simp only [other, line]
    rfl
  | case4 cursor c next other line escape ended =>
    rw [rest_of_peek next, rest_of_end ended, stringExtent.eq_def]
    simp only [other, line, escape]
    rfl
  | case5 cursor c next other line escape escaped second ih =>
    cases beq_iff_eq.mp escape
    rw [rest_of_peek next, rest_of_peek second, stringExtent_escape (by simpa using other), extent_behind, ih]
    rfl
  | case6 cursor c next other line plain ih =>
    rw [rest_of_peek next, stringExtent_char (by simpa using other) (by simpa using line) (by simpa using plain),
      extent_behind, ih]
    rfl

theorem extent_readString (next : cursor.peek = some c) :
    cursor.readString.extent = (stringExtent c cursor.advance.rest).add 1 := by
  rw [readString, next, ← extent_readStringEnd, ← length_singleton (a := c)]
  exact extent_behind _ _

theorem Covers.rest {taken : Taken} (covers : cursor.Covers taken) :
    taken.cursor.rest = cursor.rest.drop taken.text.length := by
  rw [Moves.rest covers, drop_left]

theorem extent_readUrl (depth : Nat) (cursor : Cursor) : (cursor.readUrl depth).extent = urlExtent depth cursor.rest := by
  fun_induction readUrl depth cursor with
  | case1 depth cursor ended =>
    rw [rest_of_end ended, urlExtent]
    rfl
  | case2 depth cursor c next quote quoted closed ih =>
    have string : quoted.extent = (stringExtent c cursor.advance.rest).add 1 := extent_readString next
    have closed' : (stringExtent c cursor.advance.rest).closed = true := (congrArg Extent.closed string).symm.trans closed
    have length : quoted.text.length = (stringExtent c cursor.advance.rest).length + 1 := congrArg Extent.length string
    rw [extent_behind, ih, (covers_readString cursor).rest, length, rest_of_peek next, urlExtent]
    simp only [quote, closed']
    rfl
  | case3 depth cursor c next quote quoted open_ =>
    have string : quoted.extent = (stringExtent c cursor.advance.rest).add 1 := extent_readString next
    have open' : ¬(stringExtent c cursor.advance.rest).closed = true :=
      (congrArg Extent.closed string : quoted.closed = _) ▸ open_
    rw [string, rest_of_peek next, urlExtent]
    simp only [quote, open']
    rfl
  | case4 depth cursor c next other opens ih =>
    rw [rest_of_peek next, urlExtent, extent_behind, ih]
    simp only [other, opens]
    rfl
  | case5 depth cursor c next other inner closes last =>
    rw [rest_of_peek next, urlExtent]
    simp only [other, inner, closes, last]
    rfl
  | case6 depth cursor c next other inner closes deep ih =>
    rw [rest_of_peek next, urlExtent, extent_behind, ih]
    simp only [other, inner, closes, deep]
    rfl
  | case7 depth cursor c next other inner plain ih =>
    rw [rest_of_peek next, urlExtent, extent_behind, ih]
    simp only [other, inner, plain]
    rfl

theorem nameExtent_readHole (cursor : Cursor) :
    nameExtent true cursor.rest = cursor.readHole.text.length + nameExtent false cursor.readHole.cursor.rest := by
  fun_induction readHole cursor with
  | case1 cursor ended =>
    rw [rest_of_end ended]
    simp [stop, rest_of_end ended, nameExtent]
  | case2 cursor c next ends =>
    rw [rest_of_peek next, nameExtent_inHole, beq_iff_eq.mp ends]
    exact Nat.add_comm _ _
  | case3 cursor c next inside ih =>
    rw [rest_of_peek next, nameExtent_inHole, bne, Bool.eq_false_iff.mpr inside, Bool.not_false, ih]
    simp [behind]
    omega

theorem length_readName (cursor : Cursor) : cursor.readName.text.length = nameExtent false cursor.rest := by
  fun_induction readName cursor with
  | case1 cursor ended =>
    rw [rest_of_end ended]
    rfl
  | case2 cursor c next opens hole ih =>
    simp only [Bool.and_eq_true, beq_iff_eq, peekNth_one] at opens
    obtain ⟨rfl, second⟩ := opens
    have same : nameExtent false cursor.rest = nameExtent true cursor.rest := by
      rw [rest_of_peek next, nameExtent_openHole second, nameExtent_inHole]
      rfl
    rw [same, nameExtent_readHole]
    simp [behind, ih, hole]
  | case3 cursor c next closed escape ended =>
    cases beq_iff_eq.mp escape
    rw [rest_of_peek next, rest_of_end ended]
    rfl
  | case4 cursor c next closed escape escaped second ih =>
    cases beq_iff_eq.mp escape
    rw [rest_of_peek next, rest_of_peek second, nameExtent_escape, ← ih]
    simp [behind]
  | case5 cursor c next closed plain named ih =>
    rw [rest_of_peek next, nameExtent_char _ named (by simpa using plain), ← ih]
    simp [behind]
  | case6 cursor c next closed plain other =>
    rw [rest_of_peek next, nameExtent_stop (Bool.eq_false_iff.mpr other)]
    · rfl
    · rintro rfl opens
      exact closed (by simpa [peekNth_one, peek] using opens)

theorem length_readDigits (pointSeen : Bool) (cursor : Cursor) :
    (cursor.readDigits pointSeen).text.length = digitsExtent pointSeen cursor.rest := by
  fun_induction readDigits pointSeen cursor with
  | case1 pointSeen cursor ended =>
    rw [rest_of_end ended]
    rfl
  | case2 pointSeen cursor c next digit ih =>
    rw [rest_of_peek next, digitsExtent_cons, if_pos digit, ← ih]
    simp [behind]
  | case3 pointSeen cursor c next other point ih =>
    rw [peekNth_one, peek] at point
    rw [rest_of_peek next, digitsExtent_cons, if_neg other, if_pos point, ← ih]
    simp [behind]
  | case4 pointSeen cursor c next other stops =>
    rw [peekNth_one, peek] at stops
    rw [rest_of_peek next, digitsExtent_cons, if_neg other, if_neg stops]
    rfl

theorem readUnit_extent (cursor : Cursor) :
    (cursor.readUnit.1, cursor.readUnit.2.text.length) = unitExtent cursor.rest := by
  unfold readUnit
  split
  · rename_i ended
    rw [rest_of_end ended]
    rfl
  · rename_i c next
    rw [rest_of_peek next, unitExtent]
    split
    · rfl
    split
    · rename_i letter
      rw [text_readWhile, rest_of_peek next, takeWhile_cons_of_pos letter, length_cons, Nat.add_comm]
    · rfl

theorem numberExtent_readDigits (cursor : Cursor) :
    let digits := cursor.readDigits false
    numberExtent cursor.rest =
      (digits.cursor.readUnit.1, (digits.cursor.readUnit.2.behind digits.text).text.length) := by
  intro digits
  have split : cursor.rest = digits.text ++ digits.cursor.rest := Moves.rest (covers_readDigits false cursor)
  have length : digits.text.length = _ := length_readDigits false cursor
  rw [split] at length ⊢
  rw [numberExtent_eq length.symm, ← readUnit_extent]
  simp [behind]

theorem readNumber_unsigned (unsigned : cursor.peek ≠ some '-') :
    (cursor.readNumber.1, cursor.readNumber.2.text.length) = numberExtent cursor.rest := by
  have sign : cursor.readSign = cursor.stop := if_neg (by simpa using unsigned)
  rw [numberExtent_readDigits, readNumber, sign]
  rfl

theorem readNumber_signed (signed : cursor.peek = some '-') : (cursor.readNumber.1, cursor.readNumber.2.text.length) =
    ((numberExtent cursor.advance.rest).1, (numberExtent cursor.advance.rest).2 + 1) := by
  have sign : cursor.readSign = cursor.advance.stop.behind ['-'] := if_pos (by simpa using signed)
  rw [numberExtent_readDigits, readNumber, sign]
  rfl

/-! ### Tokens -/

def Found.reading : Found → Reading
  | .token kind text _ => .token kind (text.length - 1)
  | .unclosed expected text => .unclosed expected (text.length - 1)

theorem reading_ofTaken {kind : Kind} {taken : Taken} {more : Nat} (same : taken.text.length = more + 1) :
    (Found.ofTaken kind taken).reading = .token kind more := by
  rw [Found.ofTaken, Found.reading, same, Nat.add_sub_cancel]

theorem reading_ofClosed {kind : Kind} {expected : Expectation} {taken : Taken} {extent : Extent}
    (same : taken.extent = extent.add 1) : (Found.ofClosed kind expected taken).reading = ofExtent kind expected extent := by
  have closed : taken.closed = extent.closed := congrArg Extent.closed same
  have length : taken.text.length = extent.length + 1 := congrArg Extent.length same
  rw [Found.ofClosed, ofExtent, closed]
  split
  · exact reading_ofTaken length
  · rw [Found.reading, length, Nat.add_sub_cancel]

theorem length_readName_cons (next : cursor.peek = some c)
    (named : c = '@' ∧ cursor.peekNth 1 = some '\x7b' ∨ isNameChar c = true) :
    cursor.readName.text.length = (nameExtent false (c :: cursor.advance.rest) - 1) + 1 := by
  have some_ := length_pos_iff.mpr (readName_ne_nil next named)
  rw [length_readName, rest_of_peek next] at *
  omega

theorem reading_readNameOrUrl (next : cursor.peek = some c) (named : isNameChar c = true) :
    cursor.readNameOrUrl.reading = Lexeme.readName c cursor.advance.rest := by
  have length := length_readName_cons next (.inr named)
  have covers := covers_readName cursor
  generalize more_eq : nameExtent false (c :: cursor.advance.rest) - 1 = more at length
  have text : cursor.readName.text = c :: cursor.advance.rest.take more := by
    have front : cursor.readName.text = cursor.rest.take cursor.readName.text.length := by
      rw [Moves.rest covers, take_left]
    rw [front, length, rest_of_peek next]
    rfl
  have rest : cursor.readName.cursor.rest = cursor.advance.rest.drop more := by
    rw [covers.rest, length, rest_of_peek next]
    rfl
  unfold readNameOrUrl Lexeme.readName
  simp only [more_eq, text, peek, rest, List.head?_drop]
  split
  · refine reading_ofClosed ?_
    rw [extent_behind, extent_readUrl, rest, ← text, length]
    rfl
  · exact reading_ofTaken length

theorem reading_readAt (next : cursor.peek = some '@') : cursor.readAt.reading =
    if cursor.advance.rest.head? == some '\x7b' then
      .token .identifier (nameExtent false ('@' :: cursor.advance.rest) - 1)
    else if cursor.advance.rest.head?.any fun d => isNameStart d || d == '-' then
      .token .atKeyword (nameExtent false cursor.advance.rest)
    else .token .other 0 := by
  have second : cursor.peekNth 1 = cursor.advance.rest.head? := peekNth_one cursor
  unfold readAt
  rw [second]
  split
  · rename_i opens
    exact reading_ofTaken (length_readName_cons next (.inl ⟨rfl, second.trans (beq_iff_eq.mp opens)⟩))
  split
  · rw [← length_readName]
    exact reading_ofTaken rfl
  · rfl

/-- The readers find tokens of the extents that `read` gives. -/
theorem reading_readToken (next : cursor.peek = some c) (last : Option Token) :
    (cursor.readToken last c).reading = Lexeme.read last c cursor.advance.rest := by
  have left := rest_of_peek next
  have second : cursor.peekNth 1 = cursor.advance.rest.head? := peekNth_one cursor
  have third : cursor.peekNth 2 = cursor.advance.rest[1]? := by
    rw [peekNth, left]
    rfl
  unfold readToken Lexeme.read
  rw [second, third, left]
  dsimp only
  -- Both sides make the same choices, one after the other.
  by_cases blank : isBlank c = true
  · rw [if_pos blank, if_pos blank]
    refine reading_ofTaken ?_
    rw [text_readWhile, left, takeWhile_cons_of_pos blank]
    rfl
  rw [if_neg blank, if_neg blank]
  by_cases block : (c == '/' && cursor.advance.rest.head? == some '*') = true
  · rw [if_pos block, if_pos block]
    refine reading_ofClosed ?_
    have star : cursor.advance.peek = some '*' := beq_iff_eq.mp (Bool.and_eq_true_iff.mp block).2
    rw [readBlockComment, extent_behind, extent_readCommentEnd, rest_of_peek star]
    rfl
  rw [if_neg block, if_neg block]
  by_cases line : (c == '/' && cursor.advance.rest.head? == some '/') = true
  · rw [if_pos line, if_pos line]
    refine reading_ofTaken ?_
    have slash : (c != '\n') = true := by
      rw [beq_iff_eq.mp (Bool.and_eq_true_iff.mp line).1]
      decide
    rw [text_readWhile, left, takeWhile_cons_of_pos (p := (· != '\n')) slash]
    rfl
  rw [if_neg line, if_neg line]
  by_cases quote : (c == '"' || c == '\'') = true
  · rw [if_pos quote, if_pos quote]
    exact reading_ofClosed (extent_readString next)
  rw [if_neg quote, if_neg quote]
  by_cases at_ : (c == '@') = true
  · rw [if_pos at_, if_pos at_]
    cases beq_iff_eq.mp at_
    exact reading_readAt next
  rw [if_neg at_, if_neg at_]
  by_cases hash : (c == '#' && cursor.advance.rest.head?.any isNameChar) = true
  · rw [if_pos hash, if_pos hash, ← length_readName]
    exact reading_ofTaken rfl
  rw [if_neg hash, if_neg hash]
  by_cases number : startsNumber (c :: cursor.advance.rest) = true
  · rw [if_pos number, if_pos number]
    have unsigned : cursor.peek ≠ some '-' := by
      rw [next]
      rintro ⟨rfl⟩
      simp [startsNumber] at number
    have some_ := length_pos_iff.mpr (readNumber_ne_nil next (.inl (left ▸ number)))
    have same := readNumber_unsigned unsigned
    rw [left] at same
    rw [← same]
    exact reading_ofTaken (by omega)
  rw [if_neg number, if_neg number]
  by_cases signed : (c == '-' && startsNumber cursor.advance.rest && allowsSign last) = true
  · rw [if_pos signed, if_pos signed]
    simp only [Bool.and_eq_true, beq_iff_eq] at signed
    have same := readNumber_signed (signed.1.1 ▸ next)
    obtain ⟨kind, length⟩ := Prod.mk.inj same
    rw [kind]
    exact reading_ofTaken length
  rw [if_neg signed, if_neg signed]
  generalize dashed : (c == '-' && _) = named
  cases named with
  | true =>
    rw [if_pos rfl, if_pos rfl]
    rw [Bool.and_eq_true, beq_iff_eq] at dashed
    exact reading_ofTaken (length_readName_cons next (.inr (by rw [dashed.1]; decide)))
  | false =>
    rw [if_neg Bool.false_ne_true, if_neg Bool.false_ne_true]
    split
    · rename_i name
      exact reading_readNameOrUrl next (isNameChar_of_isNameStart name)
    · rfl

end Cursor

/-! ### Scans by extents -/

namespace Lexeme

variable {last : Option Token} {c : Char} {rest : List Char}

/-- A token is cut off at its extent. -/
theorem readToken_of_read {kind : Kind} {more : Nat} (reads : read last c rest = .token kind more) (place : Position) :
    more ≤ rest.length ∧ (mk (c :: rest) place).readToken last c =
      .token kind (c :: rest.take more) ⟨rest.drop more, place.after (c :: rest.take more)⟩ := by
  have next : (mk (c :: rest) place).peek = some c := rfl
  have found := finds_readToken next last
  have reading := (reading_readToken next last).trans reads
  generalize (mk (c :: rest) place).readToken last c = outcome at found reading
  cases outcome with
  | unclosed => cases reading
  | token kind' text after =>
    obtain ⟨some_, split, moved⟩ := found
    obtain ⟨rfl, rfl⟩ := Reading.token.inj reading
    obtain ⟨d, text, rfl⟩ := exists_cons_of_ne_nil some_
    obtain ⟨rfl, rfl⟩ := List.cons.inj split
    obtain ⟨left, here⟩ := after
    dsimp only at moved
    simp [moved]

theorem readToken_of_unclosed {expected : Expectation} {more : Nat} (reads : read last c rest = .unclosed expected more)
    (place : Position) : (mk (c :: rest) place).readToken last c = .unclosed expected (c :: rest.take more) := by
  have next : (mk (c :: rest) place).peek = some c := rfl
  have found := finds_readToken next last
  have reading := (reading_readToken next last).trans reads
  generalize (mk (c :: rest) place).readToken last c = outcome at found reading
  cases outcome with
  | token => cases reading
  | unclosed expected' text =>
    obtain ⟨some_, after, split, _⟩ := found
    obtain ⟨rfl, rfl⟩ := Reading.unclosed.inj reading
    obtain ⟨d, text, rfl⟩ := exists_cons_of_ne_nil some_
    obtain ⟨rfl, rfl⟩ := List.cons.inj split
    simp

theorem read_le {kind : Kind} {more : Nat} (reads : read last c rest = .token kind more) : more ≤ rest.length :=
  (readToken_of_read reads default).1

end Lexeme

namespace Scan

def cons (token : Token) (scan : Scan) : Scan := { scan with tokens := token :: scan.tokens }

variable {last : Option Token} {cursor : Cursor} {c : Char} {rest : List Char}

theorem run_nil (last : Option Token) (place : Position) : run last ⟨[], place⟩ = ⟨[], .ok place⟩ := by
  rw [run]
  rfl

theorem run_found {kind : Kind} {text : List Char} {after : Cursor} (next : cursor.peek = some c)
    (found : cursor.readToken last c = .token kind text after) :
    run last cursor = cons ⟨kind, String.ofList text, cursor.place⟩
      (run (lastSeen last ⟨kind, String.ofList text, cursor.place⟩) after) := by
  rw [run]
  split
  · simp_all
  rename_i d next'
  cases next.symm.trans next'
  split
  · simp_all
  rename_i found'
  cases found.symm.trans found'
  rfl

theorem run_broken {expected : Expectation} {text : List Char} (next : cursor.peek = some c)
    (found : cursor.readToken last c = .unclosed expected text) :
    run last cursor = ⟨[], .error (.parse cursor.place (String.ofList text) expected)⟩ := by
  rw [run]
  split
  · simp_all
  rename_i d next'
  cases next.symm.trans next'
  split
  · rename_i found'
    cases found.symm.trans found'
    rfl
  · simp_all

theorem run_token {kind : Kind} {more : Nat} (read : Lexeme.read last c rest = .token kind more) (place : Position) :
    run last ⟨c :: rest, place⟩ = cons ⟨kind, String.ofList (c :: rest.take more), place⟩
      (run (lastSeen last ⟨kind, String.ofList (c :: rest.take more), place⟩)
        ⟨rest.drop more, place.after (c :: rest.take more)⟩) :=
  run_found rfl (Lexeme.readToken_of_read read place).2

theorem run_unclosed {expected : Expectation} {more : Nat} (read : Lexeme.read last c rest = .unclosed expected more)
    (place : Position) : run last ⟨c :: rest, place⟩ =
      ⟨[], .error (.parse place (String.ofList (c :: rest.take more)) expected)⟩ :=
  run_broken rfl (Lexeme.readToken_of_unclosed read place)

/-- A scan, token by token. -/
theorem run_induction {motive : Option Token → Position → List Char → Scan → Prop}
    (nil : ∀ last place, motive last place [] ⟨[], .ok place⟩)
    (unclosed : ∀ last place c rest expected more, Lexeme.read last c rest = .unclosed expected more →
      motive last place (c :: rest) ⟨[], .error (.parse place (String.ofList (c :: rest.take more)) expected)⟩)
    (token : ∀ last place c rest kind more, Lexeme.read last c rest = .token kind more →
      let own : Token := ⟨kind, String.ofList (c :: rest.take more), place⟩
      let place' := place.after (c :: rest.take more)
      let scan := run (lastSeen last own) ⟨rest.drop more, place'⟩
      motive (lastSeen last own) place' (rest.drop more) scan → motive last place (c :: rest) (cons own scan))
    (last : Option Token) (place : Position) (cs : List Char) : motive last place cs (run last ⟨cs, place⟩) := by
  induction size : cs.length using Nat.strongRecOn generalizing last place cs with
  | ind size ih =>
    cases cs with
    | nil => exact run_nil last place ▸ nil last place
    | cons c rest =>
      cases read : Lexeme.read last c rest with
      | unclosed expected more => exact run_unclosed read place ▸ unclosed last place c rest expected more read
      | token kind more =>
        rw [run_token read place]
        refine token last place c rest kind more read (ih _ ?_ _ _ _ rfl)
        rw [← size, length_drop, length_cons]
        omega

end Scan

end LessCss
