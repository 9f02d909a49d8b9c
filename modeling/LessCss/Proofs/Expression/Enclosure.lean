import LessCss.Proofs.Expression.Holes
import LessCss.Proofs.Value.Quoting
import LessCss.Proofs.Processor.Values

/-! Strings and urls whose holes are filled. Main statement: however its holes are filled, a scanned
string keeps the quotes around it and a scanned url keeps its name and its parentheses, so that what
they enclose can be cut out. -/

set_option autoImplicit false

namespace LessCss

open List

/-! ### The ends of a text -/

namespace Text

theorem holeAt?_concat {c : Char} (other : c ≠ '\x7d') (cs : List Char) :
    holeAt? (cs ++ [c]) = (holeAt? cs).map fun found => (found.1, found.2 ++ [c]) := by
  fun_cases holeAt? cs with
  | case1 rest unclosed =>
    rw [cons_append, cons_append, holeAt?]
    simp [dropWhile_append, unclosed, other]
  | case2 rest d after closed =>
    have inside : (rest.takeWhile (· != '\x7d')).length ≠ rest.length := by
      have whole := congrArg List.length (takeWhile_append_dropWhile (p := (· != '\x7d')) (l := rest))
      rw [closed, length_append, length_cons] at whole
      omega
    rw [cons_append, cons_append, holeAt?]
    simp [dropWhile_append, takeWhile_append, closed, inside]
  | case3 =>
    rename_i unopened
    -- A hole that opens only now has an at-sign before it and nothing behind it.
    cases found : holeAt? (cs ++ [c]) with
    | none => rfl
    | some hole =>
      have spelled := eq_of_holeAt? found
      rcases cs with _ | ⟨first, _ | ⟨second, rest⟩⟩
      · simp at spelled
      · have long := congrArg List.length spelled
        simp at long
      · obtain ⟨rfl, rfl, _⟩ : first = '@' ∧ second = '\x7b' ∧ rest ++ [c] = _ := by simpa using spelled
        exact absurd rfl (unopened rest)

theorem pieces_hole {cs name after : List Char} (found : holeAt? cs = some (name, after)) :
    pieces cs = .hole (String.ofList name) :: pieces after := by
  cases cs with
  | nil => cases found
  | cons c rest =>
    rw [pieces]
    split
    · rename_i found'
      cases found.symm.trans found'
      rfl
    · rename_i unopened
      cases found.symm.trans unopened

/-- Characters in front of which there is no at-sign stand for themselves. -/
theorem pieces_append {head : List Char} (plain : '@' ∉ head) (cs : List Char) :
    pieces (head ++ cs) = head.map .char ++ pieces cs := by
  induction head with
  | nil => rfl
  | cons c head ih =>
    have other : c ≠ '@' := fun same => plain (same ▸ mem_cons_self)
    have unopened : holeAt? (c :: (head ++ cs)) = none := by
      cases found : holeAt? (c :: (head ++ cs)) with
      | none => rfl
      | some hole => exact absurd (List.cons.inj (eq_of_holeAt? found)).1 other
    rw [cons_append, pieces_cons unopened, ih fun member => plain (mem_cons_of_mem _ member)]
    rfl

/-- So does a last character that closes no hole. -/
theorem pieces_concat {c : Char} (other : c ≠ '\x7d') (cs : List Char) : pieces (cs ++ [c]) = pieces cs ++ [.char c] := by
  fun_induction pieces cs with
  | case1 => rw [nil_append, pieces_cons (holeAt?_concat other []), pieces]; rfl
  | case2 d rest name after found ih =>
    have found' : holeAt? (d :: rest ++ [c]) = some (name, after ++ [c]) := by rw [holeAt?_concat other, found]; rfl
    rw [pieces_hole found', ih]
    rfl
  | case3 d rest unopened ih =>
    have unopened' : holeAt? (d :: (rest ++ [c])) = none := by
      rw [← cons_append, holeAt?_concat other, unopened]
      rfl
    rw [cons_append, pieces_cons unopened', ih]
    rfl

end Text

namespace Setting

variable (setting : Setting) (at_ : Token)

/-- What stands in front of all at-signs and a last character that closes no hole stay where they are. -/
theorem yields_interpolate {text : String} {head body : List Char} {last : Char} (plain : '@' ∉ head)
    (other : last ≠ '\x7d') (spelled : text.toList = head ++ (body ++ [last])) :
    (setting.interpolate at_ text).Yields fun filled => ∃ inner, filled.toList = head ++ (inner ++ [last]) := by
  have char (c : Char) : (setting.pieceText at_ (.char c)).Yields (· = String.singleton c) := Processing.yields_pure rfl
  have back : Processing.Yields ((Text.pieces (body ++ [last])).mapM (setting.pieceText at_)) fun texts =>
      ∃ inner, (String.join texts).toList = inner ++ [last] := by
    have final : Processing.Yields ([Text.Piece.char last].mapM (setting.pieceText at_))
        (· = [String.singleton last]) := by
      rw [mapM_cons, mapM_nil]
      exact (char last).bind fun text same => Processing.yields_pure (by rw [same])
    -- Only a brace at the end could close a hole, so the last character is a piece by itself.
    rw [Text.pieces_concat other, mapM_append]
    refine (Processing.yields_any _).bind fun front _ => final.bind ?_
    rintro _ rfl
    exact Processing.yields_pure ⟨(String.join front).toList, by simp⟩
  have whole : Processing.Yields ((head.map Text.Piece.char ++ Text.pieces (body ++ [last])).mapM (setting.pieceText at_))
      fun texts => ∃ inner, (String.join texts).toList = head ++ (inner ++ [last]) := by
    clear spelled plain
    induction head with
    | nil => exact back
    | cons c head ih =>
      rw [map_cons, cons_append, mapM_cons]
      refine (char c).bind fun text same => ih.bind fun texts kept => Processing.yields_pure ?_
      obtain ⟨inner, kept⟩ := kept
      refine ⟨inner, ?_⟩
      rw [String.join_cons, same, String.toList_append, kept]
      simp
  rw [interpolate, spelled, Text.pieces_append plain]
  exact whole.bind fun _ kept => Processing.yields_pure kept

end Setting

/-! ### Scanned urls -/

namespace Lexeme

/-- A url is a name, a parenthesis, and what stands before the one that closes it. -/
theorem url_spelled {c : Char} {own after : List Char} (read_ : readName c (own ++ after) = .token .url own.length) :
    ∃ name inner, c :: own = name ++ '(' :: (inner ++ [')']) ∧ name.map Char.toLower = ['u', 'r', 'l'] := by
  rw [readName] at read_
  generalize nameExtent false (c :: (own ++ after)) - 1 = more at read_
  split at read_
  · rename_i url
    rw [Bool.and_eq_true, beq_iff_eq, beq_iff_eq] at url
    obtain ⟨named, opens⟩ := url
    obtain ⟨closed, inside⟩ := Extent.add_eq_closed (ofExtent_eq_token read_).2
    rw [drop_append_of_le_length inside, ← length_drop] at closed
    rw [take_append_of_le_length inside] at named
    -- The extent behind the name ends in a parenthesis; that it begins with one is what made the name a url.
    have last := urlExtent_last closed
    cases group : own.drop more with
    | nil =>
      rw [group] at last
      cases last
    | cons d rest =>
      have first : own[more]? = some d := by rw [← List.head?_drop, group]; rfl
      rw [List.getElem?_append_left (List.getElem?_eq_some_iff.mp first).1, first] at opens
      cases opens
      rw [group] at last
      rcases eq_nil_or_concat rest with rfl | ⟨inner, e, rfl⟩
      · cases last
      · refine ⟨c :: own.take more, inner, ?_, named⟩
        have ends : e = ')' := by simpa [List.getLast?_cons] using last
        rw [cons_append, ← concat_eq_append, ← ends, ← group, take_append_drop]
  · cases read_

end Lexeme

theorem Scan.url_spelled {position : Position} {last : Option Token} {cs : List Char} {token : Token}
    (member : token ∈ (run last ⟨cs, position⟩).tokens) (url : token.kind = .url) :
    ∃ name inner, token.text.toList = name ++ '(' :: (inner ++ [')']) ∧ name.map Char.toLower = ['u', 'r', 'l'] := by
  obtain ⟨last, c, own, after, spelled, read⟩ := exists_read member
  rw [spelled]
  generalize length : own.length = more at read
  generalize token.kind = kind at read url
  cases Lexeme.branch_of_read read with
  | url name => exact Lexeme.url_spelled (length ▸ name)
  | number | signed => cases url ▸ Lexeme.isNumeric_numberExtent _
  | mark => exact absurd (url ▸ Lexeme.markKind_mem c) (by decide)
  | _ => cases url

/-! ### Slices -/

namespace Text

/-- What stands between two byte offsets of a text. There is nothing to be had if the offsets are out
of order or past the end, or if one of them falls inside a character. -/
def slice? (text : String) (start stop : Nat) : Option String :=
  if bounds : String.Pos.Raw.IsValid text ⟨start⟩ ∧ String.Pos.Raw.IsValid text ⟨stop⟩ ∧ start ≤ stop then
    some (text.extract (text.pos ⟨start⟩ bounds.1) (text.pos ⟨stop⟩ bounds.2.1))
  else none

theorem slice?_append (before inner after : String) :
    slice? (before ++ inner ++ after) before.utf8ByteSize (before.utf8ByteSize + inner.utf8ByteSize) = some inner := by
  have start : String.Pos.Raw.IsValid (before ++ inner ++ after) ⟨before.utf8ByteSize⟩ :=
    String.Pos.Raw.isValid_iff_exists_append.mpr ⟨before, inner ++ after, String.append_assoc, rfl⟩
  have stop : String.Pos.Raw.IsValid (before ++ inner ++ after) ⟨before.utf8ByteSize + inner.utf8ByteSize⟩ :=
    String.Pos.Raw.isValid_iff_exists_append.mpr ⟨before ++ inner, after, rfl, by simp [String.rawEndPos]⟩
  have cut : (before.toByteArray ++ (inner.toByteArray ++ after.toByteArray)).extract (before.utf8ByteSize + 0)
      (before.utf8ByteSize + inner.utf8ByteSize) = inner.toByteArray := by
    rw [ByteArray.extract_append_size_add' String.size_toByteArray.symm]
    exact ByteArray.extract_append_eq_left String.size_toByteArray.symm
  rw [slice?, dif_pos ⟨start, stop, Nat.le_add_right _ _⟩, Option.some.injEq, ← String.toByteArray_inj]
  simpa [ByteArray.append_assoc] using cut

end Text

namespace Value

/-- What a url literal encloses, cut out of the bytes of its text: from behind the first opening
parenthesis up to the last byte. -/
def urlSlice? (text : String) : Option String :=
  if '(' ∈ text.toList then
    Text.slice? text ((String.ofList (text.toList.takeWhile (· != '('))).utf8ByteSize + 1) (text.utf8ByteSize - 1)
  else some text

variable {text : String} {name inner : List Char}

/-- The characters that are taken off a url literal are the first and the last of these bytes. -/
theorem urlSlice?_of_parentheses (plain : '(' ∉ name) (spelled : text.toList = name ++ '(' :: (inner ++ [')'])) :
    urlInner text.toList = inner ∧ urlSlice? text = some (String.ofList inner) := by
  have before : ∀ c ∈ name, (c != '(') = true := by
    intro c member
    have other : c ≠ '(' := fun same => plain (same ▸ member)
    simp [other]
  have front : text.toList.takeWhile (· != '(') = name := by
    rw [spelled, takeWhile_append_of_pos before]
    simp
  have parts : text = String.ofList name ++ "(" ++ String.ofList inner ++ ")" := by
    rw [← String.toList_inj, spelled]
    simp
  have start : (String.ofList name).utf8ByteSize + 1 = (String.ofList name ++ "(").utf8ByteSize := by
    rw [String.utf8ByteSize_append]
    rfl
  have stop : text.utf8ByteSize - 1 = (String.ofList name ++ "(").utf8ByteSize + (String.ofList inner).utf8ByteSize := by
    rw [parts, String.utf8ByteSize_append, String.utf8ByteSize_append]
    rfl
  constructor
  · rw [urlInner, spelled, dropWhile_append_of_pos before]
    simp
  · rw [urlSlice?, if_pos (by simp [spelled]), front, start, stop]
    rw [parts, Text.slice?_append]

end Value

/-! ### Filled literals -/

/-- In a scanned string the quotes stay where they are when its holes are filled, and in a scanned url
the name with its parenthesis and the one that closes it. So the string has a quote to be taken off,
and what the url encloses is cut out of its bytes between two characters. -/
theorem Scan.filled_literals_enclosed {source text : String} {token : Token}
    (scanned : token ∈ (Scan.ofText source text).tokens) (setting : Setting) (at_ : Token) {processor after : Processor}
    {filled : String} (done : (setting.interpolate at_ token.text).run.run processor = some (.ok filled, after)) :
    (token.kind = .string → ∃ (quote : Text.Quote) (inner : List Char), token.text.toList.head? = some quote.char ∧
      filled.toList = quote.char :: (inner ++ [quote.char]) ∧ 2 ≤ filled.length ∧
      Value.ofStringLiteral filled = .string (String.ofList (quote.unescape inner)) (some quote)) ∧
    (token.kind = .url → ∃ name inner : List Char, token.text.toList.take 4 = name ++ ['('] ∧
      name.map Char.toLower = ['u', 'r', 'l'] ∧ filled.toList = name ++ '(' :: (inner ++ [')']) ∧
      Value.urlSlice? filled = some (String.ofList inner) ∧ Value.urlInner filled.toList = inner) := by
  constructor
  · intro string
    obtain ⟨quote, body, spelled, _⟩ := literal_of_string scanned string
    have plain : '@' ∉ [quote.char] := by cases quote <;> decide
    have brace : quote.char ≠ '\x7d' := by cases quote <;> decide
    obtain ⟨inner, kept⟩ := setting.yields_interpolate at_ plain brace spelled _ _ _ done
    refine ⟨quote, inner, by rw [spelled]; rfl, kept, ?_, ?_⟩
    · rw [← String.length_toList, kept]
      simp
    · rw [Value.ofStringLiteral, Text.unquote_of_quotes kept]
  · intro url
    obtain ⟨name, body, spelled, lower⟩ := url_spelled scanned url
    have letters {c : Char} (member : c ∈ name) : c.toLower ∈ ['u', 'r', 'l'] := lower ▸ mem_map_of_mem member
    have size : name.length = 3 := by simpa using congrArg List.length lower
    have plain : '@' ∉ name ++ ['('] := by
      rw [mem_append, not_or]
      exact ⟨fun member => absurd (letters member) (by decide), by decide⟩
    rw [append_cons] at spelled
    obtain ⟨inner, kept⟩ := setting.yields_interpolate at_ plain (by decide) spelled _ _ _ done
    have front : token.text.toList.take 4 = name ++ ['('] := by
      rw [spelled]
      exact take_left' (by simp [size])
    rw [← append_cons] at kept
    obtain ⟨inside, slice⟩ := Value.urlSlice?_of_parentheses (fun member => absurd (letters member) (by decide)) kept
    exact ⟨name, inner, front, lower, kept, slice, inside⟩

def openUrl : Token := ⟨.url, "Url(é@\x7bdir\x7d@\x7b)", .start "in"⟩

def openUrlScope : Scope := [⟨[("@dir", (Scan.ofText "in" "'ö)('").tokens)]⟩]

theorem openUrl_enclosed : openUrl ∈ (Scan.ofText "in" openUrl.text).tokens ∧ ∃ filled after,
    ((openUrlScope.setting .builtin).interpolate openUrl openUrl.text).run.run .fresh = some (.ok filled, after) ∧
    filled = "Url(éö)(@\x7b)" ∧ Value.urlSlice? filled = some "éö)(@\x7b" := by
  have scanned : openUrl ∈ (Scan.ofText "in" openUrl.text).tokens := by decide +kernel
  have checked : (((openUrlScope.setting .builtin).interpolate openUrl openUrl.text).run.run .fresh).any (fun ended =>
      ended.1.toOption.any (· == "Url(éö)(@\x7b)")) = true := by
    decide +kernel
  refine ⟨scanned, ?_⟩
  cases done : ((openUrlScope.setting .builtin).interpolate openUrl openUrl.text).run.run .fresh with
  | none =>
    rw [done] at checked
    cases checked
  | some ended =>
    obtain ⟨result, after⟩ := ended
    rw [done] at checked
    cases result with
    | error error => cases checked
    | ok filled =>
      obtain ⟨name, inner, _, _, spelled, slice, inside⟩ :=
        (Scan.filled_literals_enclosed scanned _ openUrl done).2 rfl
      have same : filled = "Url(éö)(@\x7b)" := beq_iff_eq.mp checked
      refine ⟨filled, after, rfl, same, ?_⟩
      rw [slice, ← inside, same]
      decide +kernel

end LessCss
