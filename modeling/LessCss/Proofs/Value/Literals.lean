import LessCss.Value.Basic
import LessCss.Proofs.Token.Borders

/-! Literals as they are scanned, and the values that are read from them. Main statements:
the text of a numeric token is a number whose unit is the one that the kind tells, and a
string or a name is written back as it was read. -/

set_option autoImplicit false

namespace LessCss

open List Lexeme

theorem Scan.exists_read {position : Position} {last : Option Token} {cs : List Char} {token : Token}
    (member : token ∈ (run last ⟨cs, position⟩).tokens) : ∃ last c own rest, token.text.toList = c :: own ∧
      read last c (own ++ rest) = .token token.kind own.length := by
  refine run_induction (motive := fun _ _ _ scan => token ∈ scan.tokens → ∃ last c own rest,
    token.text.toList = c :: own ∧ read last c (own ++ rest) = .token token.kind own.length)
    ?_ ?_ ?_ last position cs member
  · intro _ _ member
    cases member
  · intro _ _ _ _ _ _ _ member
    cases member
  · intro last position c rest kind more read first after scan ih member
    rcases mem_cons.mp member with rfl | inside
    · refine ⟨last, c, rest.take more, rest.drop more, String.toList_ofList, ?_⟩
      rw [take_append_drop, read, length_take, Nat.min_eq_left (read_le read)]
    · exact ih inside

/-! ### Numbers -/

namespace Lexeme

variable {own after : List Char} {kind : Kind}

theorem digits_of_digitsExtent (whole : digitsExtent true (own ++ after) = own.length) : ∀ c ∈ own, c.isDigit = true := by
  induction own with
  | nil => exact forall_mem_nil _
  | cons c own ih =>
    rw [cons_append, digitsExtent_cons] at whole
    split at whole
    · rename_i digit
      exact forall_mem_cons.mpr ⟨digit, ih (Nat.succ.inj whole)⟩
    · simp at whole

theorem digitsExtent_cases (whole : digitsExtent false (own ++ after) = own.length) : (∀ c ∈ own, c.isDigit = true) ∨
    ∃ front back, own = front ++ '.' :: back ∧ (∀ c ∈ front, c.isDigit = true) ∧ back ≠ [] ∧
      ∀ c ∈ back, c.isDigit = true := by
  induction own with
  | nil => exact .inl (forall_mem_nil _)
  | cons c own ih =>
    rw [cons_append, digitsExtent_cons] at whole
    split at whole
    · rename_i digit
      rcases ih (Nat.succ.inj whole) with each | ⟨front, back, rfl, each, some_, each'⟩
      · exact .inl (forall_mem_cons.mpr ⟨digit, each⟩)
      · exact .inr ⟨c :: front, back, rfl, forall_mem_cons.mpr ⟨digit, each⟩, some_, each'⟩
    · split at whole
      · rename_i point
        simp only [Bool.not_false, Bool.and_true, Bool.and_eq_true, beq_iff_eq] at point
        have behind : digitsExtent true (own ++ after) = own.length := Nat.succ.inj whole
        refine .inr ⟨[], own, by rw [point.1]; rfl, forall_mem_nil _, ?_, digits_of_digitsExtent behind⟩
        rintro rfl
        -- The digit that has to stand behind the point would belong to the number.
        cases after with
        | nil => simp at point
        | cons d after =>
          rw [nil_append, digitsExtent_cons, if_pos (by simpa using point.2)] at behind
          cases behind
      · cases whole

theorem unitExtent_cases (whole : unitExtent (own ++ after) = (kind, own.length)) : own = [] ∧ kind = .number ∨
    own = ['%'] ∧ kind = .percentage ∨ own ≠ [] ∧ (∀ c ∈ own, isAsciiLetter c = true) ∧ kind = .dimension := by
  cases own with
  | nil => exact .inl ⟨rfl, (unitExtent_zero.mp whole).1⟩
  | cons c own =>
    rw [cons_append, unitExtent] at whole
    split at whole
    · rename_i percent
      have none_ : own = [] := by simpa using congrArg Prod.snd whole
      subst none_
      exact .inr (.inl ⟨by rw [beq_iff_eq.mp percent], (congrArg Prod.fst whole).symm⟩)
    · split at whole
      · rename_i letter
        have length : ((own ++ after).takeWhile isAsciiLetter).length = own.length := by
          have := congrArg Prod.snd whole
          simp only [length_cons] at this
          omega
        exact .inr (.inr ⟨cons_ne_nil _ _, forall_mem_cons.mpr ⟨letter, (length_takeWhile_append length).1⟩,
          (congrArg Prod.fst whole).symm⟩)
      · cases whole

/-- A numeric token is a number, with a sign or without. -/
theorem read_of_isNumeric {last : Option Token} {c : Char} (read_ : read last c (own ++ after) = .token kind own.length)
    (numeric : kind.isNumeric = true) :
    startsNumber (c :: (own ++ after)) = true ∧ numberExtent (c :: (own ++ after)) = (kind, (c :: own).length) ∨
      c = '-' ∧ startsNumber (own ++ after) = true ∧ numberExtent (own ++ after) = (kind, own.length) := by
  generalize length : own.length = more at read_
  cases branch_of_read read_ with
  | number starts =>
    have positive := numberExtent_ne_zero starts
    refine .inl ⟨starts, Prod.ext rfl ?_⟩
    change _ = own.length + 1
    omega
  | signed starts => exact .inr ⟨rfl, starts, rfl⟩
  | mark => cases numeric.symm.trans (isNumeric_markKind c)
  | _ => cases numeric

end Lexeme

namespace Decimal.Numeral

def Unsigned (cs : List Char) : Prop :=
  cs ≠ [] ∧ (∀ c ∈ cs, c.isDigit = true) ∨ ∃ whole fraction, cs = whole ++ '.' :: fraction ∧
    (∀ c ∈ whole, c.isDigit = true) ∧ (∀ c ∈ fraction, c.isDigit = true) ∧ (whole ≠ [] ∨ fraction ≠ [])

theorem Unsigned.head?_ne {cs rest : List Char} (unsigned : Unsigned cs) : (cs ++ rest).head? ≠ some '-' := by
  have digit : '-'.isDigit ≠ true := by decide
  rcases unsigned with ⟨some_, each⟩ | ⟨whole, fraction, rfl, each, _, _⟩
  · obtain ⟨c, cs, rfl⟩ := exists_cons_of_ne_nil some_
    rintro minus
    cases minus
    exact digit (each '-' mem_cons_self)
  · cases whole with
    | nil => simp
    | cons c whole =>
      rintro minus
      cases minus
      exact digit (each '-' mem_cons_self)

theorem exists_read? {cs digits unit : List Char} (unsigned : Unsigned digits)
    (ends : unit.head?.any (fun c => c.isDigit || c == '.') = false)
    (signed : cs = digits ++ unit ∨ cs = '-' :: (digits ++ unit)) : ∃ numeral, read? cs = some (numeral, unit) := by
  have stop : unit.head?.any Char.isDigit = false := by
    cases unit with
    | nil => rfl
    | cons c unit => simp_all
  have back {front : List Char} (each : ∀ c ∈ front, c.isDigit = true) : (front ++ unit).dropWhile Char.isDigit = unit := by
    rw [dropWhile_append_of_pos each]
    cases unit with
    | nil => rfl
    | cons c unit => exact dropWhile_cons_of_neg (by simp_all)
  -- Digits do not begin with a sign, so the one that is taken off is the one put in front.
  have same : (if cs.head? == some '-' then cs.tail else cs) = digits ++ unit := by
    rcases signed with rfl | rfl
    · exact if_neg fun minus => unsigned.head?_ne (beq_iff_eq.mp minus)
    · rfl
  rw [read?]
  dsimp only
  rw [same]
  rcases unsigned with ⟨some_, each⟩ | ⟨whole, fraction, rfl, each, each', some_⟩
  · -- Without a point the unit follows the digits, and it begins with no point.
    rw [back each, takeWhile_append_of_head each stop]
    cases unit with
    | nil => exact ⟨_, if_neg (by simpa using some_)⟩
    | cons c unit =>
      split
      · rename_i point
        cases point
        cases ends
      · exact ⟨_, if_neg (by simpa using some_)⟩
  · have pointed : (whole ++ '.' :: fraction ++ unit).dropWhile Char.isDigit = '.' :: (fraction ++ unit) := by
      rw [List.append_assoc, dropWhile_append_of_pos each]
      rfl
    have front : (whole ++ '.' :: fraction ++ unit).takeWhile Char.isDigit = whole := by
      rw [List.append_assoc]
      exact takeWhile_append_of_head each rfl
    rw [pointed, front]
    split
    · rename_i same
      cases same
      rw [back each', takeWhile_append_of_head each' stop, if_neg (by grind)]
      exact ⟨_, rfl⟩
    · rename_i other
      exact absurd rfl (other _)

end Decimal.Numeral

theorem Quantity.head?_of_isUnitText {unit : List Char} (whole : isUnitText unit = true) :
    unit.head?.any (fun c => c.isDigit || c == '.') = false := by
  rw [isUnitText, Bool.or_eq_true, beq_iff_eq] at whole
  rcases whole with rfl | letters
  · rfl
  · cases unit with
    | nil => rfl
    | cons c unit =>
      have letter := all_eq_true.mp letters c mem_cons_self
      rw [isAlpha_iff] at letter
      simp only [List.head?_cons, Option.any_some, Bool.or_eq_false_iff, beq_eq_false_iff_ne]
      constructor
      · rw [Bool.eq_false_iff, Ne, isDigit_iff]
        omega
      · rintro rfl
        exact absurd letter (by decide)

theorem Quantity.tokenKind_of_letters {quantity : Quantity} (some_ : quantity.unit.toList ≠ [])
    (letters : ∀ c ∈ quantity.unit.toList, c.isAlpha = true) : quantity.tokenKind = .dimension := by
  have plain : quantity.unit ≠ "" := by
    rw [Ne, ← String.toList_inj]
    exact some_
  have percent : quantity.unit ≠ "%" := by
    intro same
    rw [same] at letters
    exact absurd (letters '%' (by decide)) (by decide)
  simp [tokenKind, isPlain, isPercentage, plain, percent]

/-- Digits and the unit of a kind are a quantity of that kind. -/
theorem Quantity.exists_read? {cs own after : List Char} {kind : Kind}
    (whole : numberExtent (own ++ after) = (kind, own.length)) (starts : startsNumber (own ++ after) = true)
    (signed : cs = own ∨ cs = '-' :: own) :
    ∃ quantity, read? (String.ofList cs) = some quantity ∧ quantity.tokenKind = kind := by
  obtain ⟨digits, unit, rfl, number, unit_⟩ := exists_unit whole
  have some_ : digits ≠ [] := by
    rintro rfl
    exact (startsNumber_iff _).mp starts number
  have units := unitExtent_cases unit_
  -- What the lexer takes as digits and as a unit is what the reader of numbers expects.
  have unsigned : Decimal.Numeral.Unsigned digits := by
    rcases digitsExtent_cases number with each | ⟨front, back, same, each, some', each'⟩
    · exact .inl ⟨some_, each⟩
    · exact .inr ⟨front, back, same, each, each', .inr some'⟩
  have unitText : isUnitText unit = true := by
    rcases units with ⟨rfl, _⟩ | ⟨rfl, _⟩ | ⟨_, letters, _⟩
    · rfl
    · rfl
    · have each : unit.all Char.isAlpha = true := all_eq_true.mpr letters
      rw [isUnitText, each, Bool.or_true]
  obtain ⟨numeral, read⟩ := Decimal.Numeral.exists_read? unsigned (head?_of_isUnitText unitText) signed
  refine ⟨⟨numeral.value, String.ofList unit⟩, ?_, ?_⟩
  · rw [read?, String.toList_ofList, read]
    exact if_pos unitText
  · rcases units with ⟨rfl, rfl⟩ | ⟨rfl, rfl⟩ | ⟨some_, letters, rfl⟩
    · rfl
    · rfl
    · have unit_ : (String.ofList unit).toList = unit := String.toList_ofList
      exact tokenKind_of_letters (by rwa [unit_]) (by rwa [unit_])

theorem Scan.exists_quantity {position : Position} {last : Option Token} {cs : List Char} {token : Token}
    (member : token ∈ (run last ⟨cs, position⟩).tokens) (numeric : token.kind.isNumeric = true) :
    ∃ quantity, Quantity.read? token.text = some quantity ∧ quantity.tokenKind = token.kind := by
  obtain ⟨last, c, own, after, spelled, read⟩ := exists_read member
  rw [← String.ofList_toList (s := token.text), spelled]
  rcases read_of_isNumeric read numeric with ⟨starts, whole⟩ | ⟨rfl, starts, whole⟩
  · exact Quantity.exists_read? whole starts (.inl rfl)
  · exact Quantity.exists_read? whole starts (.inr rfl)

/-! ### Strings -/

/-- What stands between quotes: a quote only behind a backslash, and each backslash with the
character behind it. -/
inductive Lexeme.StringBody (quote : Char) : List Char → Prop where
  | nil : StringBody quote []
  | char {c : Char} {body : List Char} (other : c ≠ quote) (plain : c ≠ '\\') (rest : StringBody quote body) :
      StringBody quote (c :: body)
  | escape (c : Char) {body : List Char} (rest : StringBody quote body) : StringBody quote ('\\' :: c :: body)

theorem Lexeme.quote_of_read {last : Option Token} {c : Char} {rest : List Char} {more : Nat}
    (read_ : read last c rest = .token .string more) : c = '"' ∨ c = '\'' := by
  generalize string : Kind.string = kind at read_
  cases branch_of_read read_ with
  | string quote => exact quote
  | number | signed => cases string ▸ isNumeric_numberExtent _
  | mark => exact absurd (string ▸ markKind_mem c) (by decide)
  | _ => cases string

theorem Lexeme.exists_stringBody {quote : Char} {own after : List Char}
    (closed : stringExtent quote (own ++ after) = ⟨true, own.length⟩) :
    ∃ body, own = body ++ [quote] ∧ StringBody quote body := by
  refine closed_induction (motive := fun own => ∃ body, own = body ++ [quote] ∧ StringBody quote body)
    ⟨[], rfl, .nil⟩ ?_ ?_ closed
  · rintro _ d _ ⟨body, rfl, rest⟩
    exact ⟨'\\' :: d :: body, rfl, .escape d rest⟩
  · rintro c _ other _ plain ⟨body, rfl, rest⟩
    exact ⟨c :: body, rfl, .char other plain rest⟩

namespace Text.Quote

theorem char_ne_backslash (quote : Quote) : quote.char ≠ '\\' := by
  cases quote <;> decide

theorem head?_stringBody {quote : Char} {body : List Char} (string : Lexeme.StringBody quote body) (other : quote ≠ '\\') :
    body.head? ≠ some quote := by
  cases string with
  | nil => simp
  | char apart => simpa using apart
  | escape => simpa using other.symm

/-- What is taken off a string is what is put back. -/
theorem escape_unescape {quote : Quote} {body : List Char} (string : Lexeme.StringBody quote.char body) :
    quote.escape (quote.unescape body) = body := by
  have other := quote.char_ne_backslash
  induction string with
  | nil => rfl
  | char apart plain rest ih =>
    rw [unescape, if_neg (by simp [plain]), escape, flatMap_cons, if_neg apart]
    exact congrArg (_ :: ·) ih
  | @escape c body rest ih =>
    by_cases same : c = quote.char
    · subst same
      rw [unescape, if_pos (by simp), unescape, if_neg (by simp [other]), escape, flatMap_cons, if_pos rfl]
      exact congrArg (fun rest => '\\' :: quote.char :: rest) ih
    · have head := head?_stringBody rest other
      rw [unescape, if_neg (by simp [same]), unescape, if_neg (by simp [head]), escape, flatMap_cons,
        if_neg other.symm, flatMap_cons, if_neg same]
      exact congrArg (fun rest => '\\' :: c :: rest) ih

theorem ofChar?_char (quote : Quote) : ofChar? quote.char = some quote := by
  cases quote <;> rfl

end Text.Quote

theorem Text.unquote_of_quotes {quote : Text.Quote} {body : List Char} {text : String}
    (spelled : text.toList = quote.char :: (body ++ [quote.char])) :
    Text.unquote text = (String.ofList (quote.unescape body), some quote) := by
  rw [Text.unquote, spelled]
  dsimp only
  rw [quote.ofChar?_char]
  dsimp only
  rw [if_pos List.getLast?_concat, dropLast_concat]

theorem Text.Quote.write_unescape {quote : Text.Quote} {body : List Char} {text : String}
    (string : Lexeme.StringBody quote.char body) (spelled : text.toList = quote.char :: (body ++ [quote.char])) :
    quote.write (String.ofList (quote.unescape body)) = text := by
  rw [write, String.toList_ofList, escape_unescape string, ← String.toList_inj, spelled, String.toList_ofList]
  rfl

/-- A string in quotes is written back as it stands. -/
theorem Value.ofStringLiteral_of_body {quote : Text.Quote} {body : List Char} {text : String}
    (string : Lexeme.StringBody quote.char body) (spelled : text.toList = quote.char :: (body ++ [quote.char])) :
    (ofStringLiteral text).css = text ∧ (ofStringLiteral text).tokenKind = .string := by
  rw [ofStringLiteral, Text.unquote_of_quotes spelled]
  exact ⟨Text.Quote.write_unescape string spelled, rfl⟩

theorem Scan.ofStringLiteral_text {position : Position} {last : Option Token} {cs : List Char} {token : Token}
    (member : token ∈ (run last ⟨cs, position⟩).tokens) (string : token.kind = .string) :
    (Value.ofStringLiteral token.text).css = token.text ∧ (Value.ofStringLiteral token.text).tokenKind = .string := by
  obtain ⟨last, c, own, after, spelled, read⟩ := exists_read member
  rw [string] at read
  have quote := quote_of_read read
  rw [read_quote quote] at read
  obtain ⟨body, rfl, inside⟩ := exists_stringBody (ofExtent_eq_token read).2
  rcases quote with rfl | rfl
  · have double : Lexeme.StringBody Text.Quote.double.char body := inside
    exact Value.ofStringLiteral_of_body double spelled
  · have single : Lexeme.StringBody Text.Quote.single.char body := inside
    exact Value.ofStringLiteral_of_body single spelled

/-! ### Names -/

theorem Text.toList_toLower (text : String) : text.toLower.toList = text.toList.map Char.toLower := by
  change (text.map Char.toLower).toList = _
  exact String.toList_map

theorem Color.spelling_of_ofName? {name : String} {color : Color} (found : ofName? name = some color) :
    color.spelling = some name ∧ name.toList.head? ≠ some '#' := by
  have head : name.toLower.toList.head? ≠ some '#' → name.toList.head? ≠ some '#' := by
    intro other same
    rw [Text.toList_toLower, List.head?_map, same] at other
    exact other rfl
  rw [ofName?] at found
  split at found
  · rename_i transparent
    cases found
    refine ⟨rfl, head ?_⟩
    rw [transparent]
    decide
  · obtain ⟨channels, entry, rfl⟩ := Option.map_eq_some_iff.mp found
    obtain ⟨before, after, same, _⟩ := lookup_eq_some_iff.mp entry
    refine ⟨rfl, head ?_⟩
    have each : (named.all fun entry => entry.1.toList.head? != some '#') = true := by decide +kernel
    have other := all_eq_true.mp each (name.toLower, channels) (by simp [same])
    simpa using other

theorem Value.ofIdentifier_text (text : String) :
    (ofIdentifier text).css = text ∧ (ofIdentifier text).tokenKind = .identifier := by
  rw [ofIdentifier]
  split
  · rename_i same
    exact ⟨same.symm, rfl⟩
  · split
    · rename_i same
      exact ⟨same.symm, rfl⟩
    · split
      · exact ⟨rfl, rfl⟩
      · split
        · rename_i color found
          obtain ⟨spelled, plain⟩ := Color.spelling_of_ofName? found
          refine ⟨?_, ?_⟩
          · rw [css, Color.css, spelled]
          · rw [tokenKind, colorTokenKind, spelled]
            exact if_neg plain
        · exact ⟨rfl, rfl⟩

theorem Value.tokenKind_ofHash (text : String) :
    (ofHash text).tokenKind = .hash ∨ (ofHash text).tokenKind = .identifier := by
  rw [ofHash]
  split
  · rename_i color found
    rw [Color.ofHash?] at found
    split at found
    · rename_i digits spelled
      obtain ⟨_, _, rfl⟩ := Option.map_eq_some_iff.mp found
      refine .inl ?_
      change (if text.toList.head? = some '#' then Kind.hash else .identifier) = .hash
      rw [spelled]
      rfl
    · cases found
  · exact .inr rfl

end LessCss
