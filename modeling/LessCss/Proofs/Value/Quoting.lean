import LessCss.Expression.Environment
import LessCss.Proofs.Value.Braces
import LessCss.Proofs.Value.Literals
import LessCss.Proofs.Yields

/-! Strings that are scanned back as they are written. Main statements: such a string stays one
when its holes are filled with texts that can stand between its quotes, and the built-in
functions give no other strings, the one that fills placeholders apart. -/

set_option autoImplicit false

namespace LessCss

open List Scan Lexeme Text

/-! ### Between quotes -/

namespace Lexeme

variable {quote : Char} {escaped : Bool} {first second body : List Char}

/-- Whether a text between quotes ends behind the backslash of an escape, where `escaped` tells it of the
text in front. There is no answer if the quote or the end of a line stands there without a backslash. -/
def endsEscaped (quote : Char) : (escaped : Bool) → List Char → Option Bool
  | escaped, [] => some escaped
  | true, _ :: rest => endsEscaped quote false rest
  | false, c :: rest => if c = quote ∨ c = '\n' then none else endsEscaped quote (c == '\\') rest

def Closes (quote : Char) (escaped : Bool) (cs : List Char) : Prop :=
  ∃ body, cs = body ++ [quote] ∧ endsEscaped quote escaped body = some false

theorem endsEscaped_append (first second : List Char) : endsEscaped quote escaped (first ++ second) =
    (endsEscaped quote escaped first).bind (endsEscaped quote · second) := by
  induction first generalizing escaped with
  | nil => rfl
  | cons c rest ih =>
    cases escaped with
    | true => exact ih
    | false =>
      rw [cons_append, endsEscaped, endsEscaped]
      split
      · rfl
      · exact ih

/-- What can stand between quotes does not change what follows it. -/
theorem endsEscaped_append_of_body (whole : endsEscaped quote false first = some false) (second : List Char) :
    endsEscaped quote false (first ++ second) = endsEscaped quote false second := by
  rw [endsEscaped_append, whole]
  rfl

/-- How a text between quotes is made up: an escape takes two characters. -/
theorem body_induction {motive : List Char → Prop} (nil : motive [])
    (escape : '\\' ≠ quote → ∀ d rest, motive rest → motive ('\\' :: d :: rest))
    (char : ∀ c rest, c ≠ quote → c ≠ '\n' → c ≠ '\\' → motive rest → motive (c :: rest))
    (whole : endsEscaped quote false body = some false) : motive body := by
  induction size : body.length using Nat.strongRecOn generalizing body with
  | ind size ih =>
    subst size
    cases body with
    | nil => exact nil
    | cons c rest =>
      rw [endsEscaped] at whole
      split at whole
      · cases whole
      · rename_i plain
        rw [not_or] at plain
        by_cases backslash : c = '\\'
        · subst backslash
          cases rest with
          | nil => cases whole
          | cons d rest =>
            exact escape plain.1 d rest (ih rest.length (by simp only [length_cons]; omega) whole rfl)
        · rw [beq_false_of_ne backslash] at whole
          exact char c rest plain.1 plain.2 backslash (ih rest.length (Nat.lt_succ_self _) whole rfl)

theorem stringBody_of_endsEscaped (whole : endsEscaped quote false body = some false) : StringBody quote body :=
  body_induction .nil (fun _ d _ rest => .escape d rest) (fun _ _ other _ plain rest => .char other plain rest) whole

theorem stringExtent_of_body (whole : endsEscaped quote false body = some false) :
    stringExtent quote (body ++ [quote]) = ⟨true, body.length + 1⟩ := by
  refine body_induction (motive := fun body => stringExtent quote (body ++ [quote]) = ⟨true, body.length + 1⟩)
    ?_ ?_ ?_ whole
  · exact stringExtent_quote quote []
  · intro other d rest extent
    rw [cons_append, cons_append, stringExtent_escape other, extent]
    rfl
  · intro c rest other line plain extent
    rw [cons_append, stringExtent_char other line plain, extent]
    rfl

theorem closes_of_stringExtent {own after : List Char}
    (closed : stringExtent quote (own ++ after) = ⟨true, own.length⟩) : Closes quote false own := by
  refine closed_induction (motive := Closes quote false) ⟨[], rfl, rfl⟩ ?_ ?_ closed
  · rintro other d _ ⟨body, rfl, whole⟩
    refine ⟨'\\' :: d :: body, rfl, ?_⟩
    rw [endsEscaped, if_neg (by simp [other])]
    exact whole
  · rintro c _ other line plain ⟨body, rfl, whole⟩
    refine ⟨c :: body, rfl, ?_⟩
    rw [endsEscaped, if_neg (by simp [other, line]), beq_false_of_ne plain]
    exact whole

end Lexeme

namespace Text

/-- Scanned alone, the text is one string. -/
def IsString (text : String) : Prop :=
  ∀ source, (ofText source text).complete = .ok [⟨.string, text, .start source⟩]

def Quote.around (quote : Quote) (text : String) : String :=
  String.ofList (quote.char :: (text.toList ++ [quote.char]))

def Literal (text : String) : Prop :=
  ∃ (quote : Quote) (body : List Char), text.toList = quote.char :: (body ++ [quote.char]) ∧
    endsEscaped quote.char false body = some false

theorem Quote.exists_char {c : Char} (either : c = '"' ∨ c = '\'') : ∃ quote : Quote, quote.char = c := by
  rcases either with rfl | rfl
  · exact ⟨.double, rfl⟩
  · exact ⟨.single, rfl⟩

theorem Quote.char_cases (quote : Quote) : quote.char = '"' ∨ quote.char = '\'' := by
  cases quote
  · exact .inl rfl
  · exact .inr rfl

end Text

theorem Scan.literal_of_string {position : Position} {last : Option Token} {cs : List Char} {token : Token}
    (member : token ∈ (run last ⟨cs, position⟩).tokens) (string : token.kind = .string) : Text.Literal token.text := by
  obtain ⟨last, c, own, after, spelled, read⟩ := exists_read member
  rw [string] at read
  have either := quote_of_read read
  rw [read_quote either] at read
  obtain ⟨body, rfl, whole⟩ := closes_of_stringExtent (ofExtent_eq_token read).2
  obtain ⟨quote, rfl⟩ := Text.Quote.exists_char either
  exact ⟨quote, body, spelled, whole⟩

namespace Text

theorem Literal.isString {text : String} (literal : Literal text) : IsString text := by
  obtain ⟨quote, body, spelled, whole⟩ := literal
  intro source
  have read : read none quote.char (body ++ [quote.char]) = .token .string (body ++ [quote.char]).length := by
    rw [read_quote quote.char_cases, stringExtent_of_body whole, length_append]
    rfl
  have scanned : (ofText source text).tokens = [⟨.string, text, .start source⟩] ∧
      ∃ position, (ofText source text).ending = .ok position := by
    rw [ofText, spelled, run_token read, take_length, drop_length, run_nil, ← spelled,
      String.ofList_toList]
    exact ⟨rfl, _, rfl⟩
  obtain ⟨tokens, position, ending⟩ := scanned
  rw [complete, ending, tokens]
  rfl

theorem IsString.literal {text : String} (string : IsString text) : Literal text := by
  have scanned := string ""
  rw [complete] at scanned
  cases ending : (ofText "" text).ending with
  | error error =>
    rw [ending] at scanned
    cases scanned
  | ok position =>
    rw [ending] at scanned
    have member : (⟨.string, text, .start ""⟩ : Token) ∈ (ofText "" text).tokens := by
      have tokens : (ofText "" text).tokens = _ := Except.ok.inj scanned
      rw [tokens]
      exact mem_singleton_self _
    exact literal_of_string member rfl

theorem Quote.unescape_escape (quote : Quote) (cs : List Char) : quote.unescape (quote.escape cs) = cs := by
  have other := quote.char_ne_backslash
  have head (cs : List Char) : (quote.escape cs).head? ≠ some quote.char := by
    cases cs with
    | nil => simp [escape]
    | cons c rest =>
      rw [escape, flatMap_cons]
      split
      · simpa using other.symm
      · rename_i apart
        simpa using apart
  induction cs with
  | nil => rfl
  | cons c rest ih =>
    by_cases same : c = quote.char
    · subst same
      rw [escape, flatMap_cons, if_pos rfl]
      change quote.unescape ('\\' :: quote.char :: quote.escape rest) = _
      rw [unescape, if_pos (by simp), unescape, if_neg (by simp [other]), ih]
    · rw [escape, flatMap_cons, if_neg same]
      change quote.unescape (c :: quote.escape rest) = _
      rw [unescape, if_neg (by simp [head rest]), ih]

theorem unquote_write (quote : Quote) (text : String) : unquote (quote.write text) = (text, some quote) := by
  have spelled : (quote.write text).toList = quote.char :: (quote.escape text.toList ++ [quote.char]) := by
    rw [Quote.write, String.toList_ofList]
    rfl
  rw [unquote_of_quotes spelled, Quote.unescape_escape, String.ofList_toList]

/-- What is taken off a text in quotes is what was put around it. -/
theorem Literal.exists_write {text : String} (literal : Literal text) :
    ∃ quote inner, unquote text = (inner, some quote) ∧ quote.write inner = text := by
  obtain ⟨quote, body, spelled, whole⟩ := literal
  have string := stringBody_of_endsEscaped whole
  exact ⟨quote, String.ofList (quote.unescape body), unquote_of_quotes spelled, Quote.write_unescape string spelled⟩

/-- Quotes are taken off as they are put around a text, whatever backslashes and quotes are in it, and
they are put back around a scanned string as they were. -/
theorem quotes_put_and_taken :
    (∀ (quote : Quote) (text : String), unquote (quote.write text) = (text, some quote)) ∧
      ∀ (source text : String), ∀ token ∈ (ofText source text).tokens, token.kind = .string →
        ∃ quote inner, unquote token.text = (inner, some quote) ∧ quote.write inner = token.text ∧
          Value.ofStringLiteral token.text = .string inner (some quote) ∧
          (Value.ofStringLiteral token.text).css = token.text := by
  refine ⟨unquote_write, fun source text token member string => ?_⟩
  obtain ⟨quote, inner, taken, put⟩ := (literal_of_string member string).exists_write
  have value : Value.ofStringLiteral token.text = .string inner (some quote) := by
    rw [Value.ofStringLiteral, taken]
  refine ⟨quote, inner, taken, put, value, ?_⟩
  rw [value]
  exact put

def escapedText : String := "'it\\'s \\\\'"

theorem escapedText_put_and_taken :
    unquote (Quote.single.write "it's \\\\") = ("it's \\\\", some .single) ∧
      (⟨.string, escapedText, .start "in"⟩ : Token) ∈ (ofText "in" escapedText).tokens ∧
        ∃ quote inner, unquote escapedText = (inner, some quote) ∧ quote.write inner = escapedText := by
  have scanned : (ofText "in" escapedText).tokens = [⟨.string, escapedText, .start "in"⟩] := by decide +kernel
  have member : (⟨.string, escapedText, .start "in"⟩ : Token) ∈ (ofText "in" escapedText).tokens := by
    rw [scanned]
    exact mem_singleton_self _
  obtain ⟨quote, inner, taken, put, _⟩ := quotes_put_and_taken.2 "in" escapedText _ member rfl
  exact ⟨quotes_put_and_taken.1 .single _, member, quote, inner, taken, put⟩

/-- A text without backslashes and ends of lines can be written in quotes. -/
theorem Quote.literal_write {quote : Quote} {text : String} (smooth : ∀ c ∈ text.toList, c ≠ '\\' ∧ c ≠ '\n') :
    Literal (quote.write text) := by
  refine ⟨quote, quote.escape text.toList, by rw [write, String.toList_ofList]; rfl, ?_⟩
  generalize text.toList = cs at smooth
  induction cs with
  | nil => rfl
  | cons c rest ih =>
    obtain ⟨first, others⟩ := forall_mem_cons.mp smooth
    rw [escape, flatMap_cons]
    split
    · rename_i same
      have apart : ¬('\\' = quote.char ∨ '\\' = '\n') := by simp [quote.char_ne_backslash.symm]
      rw [cons_append, endsEscaped, if_neg apart]
      exact ih others
    · rename_i apart
      rw [singleton_append, endsEscaped, if_neg (by simp [apart, first.2]), beq_false_of_ne first.1]
      exact ih others

theorem ne_percent_of_mem {text : String} {c : Char} (member : c ∈ text.toList) (other : c ≠ '%') : text ≠ "%" := by
  rintro rfl
  exact other (mem_singleton.mp member)

theorem percentEscape_ne {text : String} (other : text ≠ "%") : percentEscape text ≠ "%" := by
  intro same
  have chars : (text.toList.flatMap fun c => if escapedChars.contains c then percentCode c else [c]) = ['%'] := by
    have written := congrArg String.toList same
    rwa [percentEscape, String.toList_ofList] at written
  cases spelled : text.toList with
  | nil =>
    rw [spelled] at chars
    cases chars
  | cons c rest =>
    rw [spelled, flatMap_cons] at chars
    split at chars
    · exact absurd (congrArg List.length chars) (by simp [percentCode])
    · obtain ⟨rfl, empty⟩ := List.cons.inj chars
      refine other (String.toList_inj.mp ?_)
      rw [spelled]
      cases rest with
      | nil => rfl
      | cons d rest =>
        rw [flatMap_cons] at empty
        split at empty <;> cases empty

end Text

/-! ### Values -/

theorem Decimal.exists_mem_write (x : Float) : ∃ c ∈ (write x).toList, c ≠ '%' := by
  rw [write]
  split
  · exact ⟨'0', by decide, by decide⟩
  · split
    · rename_i negative mantissa exponent _
      obtain ⟨c, rest, digits⟩ := exists_cons_of_ne_nil
        (Nat.toDigits_ne_nil (b := 10) (n := unitsOf mantissa exponent / tenTo places))
      have digit := Nat.isDigit_of_mem_toDigits (by decide) (by decide) (digits ▸ mem_cons_self)
      refine ⟨c, by simp [writeUnits, digits], ?_⟩
      rintro rfl
      cases digit
    · split
      · exact ⟨'-', by decide, by decide⟩
      · exact ⟨'i', by decide, by decide⟩
    · exact ⟨'N', by decide, by decide⟩

namespace Value

/-- A string is written so that it is scanned back, and nothing is written as the function that
fills placeholders is called. -/
def Sound : Value → Prop
  | .unit name => name ≠ "%"
  | .color c => c.spelling ≠ some "%"
  | .string text none => text ≠ "%"
  | .string text (some quote) => text ≠ "%" ∧ Text.Literal (quote.write text)
  | _ => True

variable {value : Value}

theorem Sound.css_ne (sound : value.Sound) : value.css ≠ "%" := by
  cases value with
  | quantity quantity =>
    obtain ⟨c, member, other⟩ := Decimal.exists_mem_write quantity.value
    exact ne_percent_of_mem (by rw [css, Quantity.css, String.toList_append]; exact mem_append_left _ member) other
  | unit name => exact sound
  | color color =>
    rw [css, Color.css]
    split
    · rename_i spelling found
      rintro rfl
      exact sound found
    · split
      · exact ne_percent_of_mem (c := '#') (by simp [Color.hex, Color.hexText]) (by decide)
      · exact ne_percent_of_mem (c := 'r') (by simp [Color.rgbaText]) (by decide)
  | string text quote =>
    cases quote with
    | none => exact sound
    | some quote =>
      refine ne_percent_of_mem (c := quote.char) ?_ (by cases quote <;> decide)
      simp [css, writeQuoted, Text.Quote.write]
  | url inner quote => exact ne_percent_of_mem (c := 'u') (by simp [css]) (by decide)
  | boolean truth => cases truth <;> decide

theorem Sound.plain_ne (sound : value.Sound) : value.plain ≠ "%" := by
  cases value with
  | string text quote =>
    cases quote with
    | none => exact sound
    | some quote => exact sound.1
  | quantity | unit | color | url | boolean => exact sound.css_ne

theorem sound_ofStringLiteral {text : String} (literal : Text.Literal text) (other : (unquote text).1 ≠ "%") :
    (ofStringLiteral text).Sound := by
  obtain ⟨quote, body, spelled, whole⟩ := literal
  have back := (ofStringLiteral_of_body (stringBody_of_endsEscaped whole) spelled).1
  rw [ofStringLiteral, unquote_of_quotes spelled] at back ⊢
  rw [unquote_of_quotes spelled] at other
  refine ⟨other, ?_⟩
  rw [show quote.write (String.ofList (quote.unescape body)) = text from back]
  exact ⟨quote, body, spelled, whole⟩

theorem sound_ofIdentifier {text : String} (other : text ≠ "%") : (ofIdentifier text).Sound := by
  rw [ofIdentifier]
  split
  · trivial
  split
  · trivial
  split
  · exact other
  split
  · rename_i color found
    intro same
    rw [(Color.spelling_of_ofName? found).1] at same
    exact other (Option.some.inj same)
  · exact other

theorem sound_ofHash {text : String} (other : text ≠ "%") : (ofHash text).Sound := by
  rw [ofHash]
  split
  · rename_i color found
    intro same
    unfold Color.ofHash? at found
    split at found
    · obtain ⟨_, _, rfl⟩ := Option.map_eq_some_iff.mp found
      exact other (Option.some.inj same)
    · cases found
  · exact other

theorem sound_ofNumeric {text : String} (other : text ≠ "%") : (ofNumeric text).Sound := by
  rw [ofNumeric]
  split
  · trivial
  · exact other

theorem sound_color {c : Color} (plain : c.spelling = none) : (color c).Sound := by
  intro same
  rw [plain] at same
  cases same

theorem sound_operate {lhs rhs : Value} {op : Operator} (done : lhs.operate op rhs = .ok value) : value.Sound := by
  rcases operate_cases done with ⟨truth, rfl⟩ | ⟨a, b, x, rfl, rfl, rfl⟩ | ⟨red, green, blue, alpha, rfl⟩
  · trivial
  · trivial
  · exact sound_color rfl

end Value

/-! ### Functions -/

theorem Color.spelling_toColor (hsl : Hsl) (alpha : Float) : (hsl.toColor alpha).spelling = none := by
  rw [Hsl.toColor]
  dsimp only
  split <;> rfl

namespace Builtin

def KeepsSound (function : String × String × (List Value → Value)) : Prop :=
  ∀ arguments : List Value, (∀ argument ∈ arguments, argument.Sound) → (function.2.2 arguments).Sound

theorem sound_colorOr {arguments : List Value} (each : ∀ argument ∈ arguments, argument.Sound) (i : Nat) {other : Color}
    (sound : (Value.color other).Sound) : (Value.color (colorOr arguments i other)).Sound := by
  rw [colorOr]
  split
  · rename_i found
    exact each _ (mem_of_getElem? found)
  · exact sound

theorem keepsSound_contrast {name signature : String} : KeepsSound (name, signature, contrast) := by
  intro arguments each
  have plain (red green blue alpha : Float) : (Value.color (.rgba red green blue alpha)).Sound := Value.sound_color rfl
  change (Value.color (Color.contrast _ _ _ _)).Sound
  rcases Color.contrast_cases _ _ _ _ with same | same
  · rw [same]
    exact sound_colorOr each 1 (plain 0 0 0 1)
  · rw [same]
    exact sound_colorOr each 2 (plain 255 255 255 1)

theorem keepsSound_colorFunctions : ∀ function ∈ colorFunctions, KeepsSound function := by
  have hsl (hsl : Hsl) (alpha : Float) : (Value.color (hsl.toColor alpha)).Sound :=
    Value.sound_color (Color.spelling_toColor hsl alpha)
  have grey (color : Color) : (Value.color color.greyscale).Sound := by
    rw [Color.greyscale, Color.desaturate]
    exact hsl _ _
  have code (color : Color) : color.argb ≠ "%" :=
    ne_percent_of_mem (c := '#') (by simp [Color.argb, Color.hexText]) (by decide)
  simp only [colorFunctions, forall_mem_cons]
  exact ⟨fun _ _ => Value.sound_color rfl, fun _ _ => Value.sound_color rfl, fun _ _ => hsl _ _, fun _ _ => hsl _ _,
    fun _ _ => hsl _ _, fun _ _ => hsl _ _, fun _ _ => hsl _ _, fun _ _ => hsl _ _, fun _ _ => Value.sound_color rfl,
    fun _ _ => Value.sound_color rfl, fun _ _ => Value.sound_color rfl, fun _ _ => hsl _ _,
    fun _ _ => Value.sound_color rfl, fun _ _ => grey _, keepsSound_contrast, fun _ _ => trivial, fun _ _ => trivial,
    fun _ _ => trivial, fun _ _ => trivial, fun _ _ => trivial, fun _ _ => trivial, fun _ _ => trivial,
    fun _ _ => code _, fun _ _ => Value.sound_color rfl, fun _ _ => Value.sound_color rfl,
    fun _ _ => Value.sound_color rfl, forall_mem_nil _⟩

theorem keepsSound_numberFunctions : ∀ function ∈ numberFunctions, KeepsSound function := by
  have number (change : Float → Float) (arguments : List Value) : (onNumber change arguments).Sound := by
    rw [onNumber]
    split <;> trivial
  have changed {name signature : String} (change : Float → Float) : KeepsSound (name, signature, onNumber change) :=
    fun arguments _ => number change arguments
  have rounded {name signature : String} : KeepsSound (name, signature, round) := by
    intro arguments _
    change (round arguments).Sound
    rw [round]
    exact number _ arguments
  simp only [numberFunctions, forall_mem_cons]
  exact ⟨fun _ _ => trivial, changed _, changed _, changed _, changed _, rounded, fun _ _ => trivial, forall_mem_nil _⟩

theorem keepsSound_testFunctions : ∀ function ∈ testFunctions, KeepsSound function := by
  simp only [testFunctions, forall_mem_cons]
  exact ⟨fun _ _ => trivial, fun _ _ => trivial, fun _ _ => trivial, fun _ _ => trivial, fun _ _ => trivial,
    fun _ _ => trivial, fun _ _ => trivial, fun _ _ => trivial, fun _ _ => trivial, forall_mem_nil _⟩

theorem stringAt_ne {arguments : List Value} (each : ∀ argument ∈ arguments, argument.Sound) (i : Nat) :
    stringAt arguments i ≠ "%" := by
  rw [stringAt]
  split
  · rename_i value found
    exact (each value (mem_of_getElem? found)).plain_ne
  · decide

/-- All functions but the one that fills placeholders keep strings sound. -/
theorem keepsSound_functions : ∀ function ∈ functions, function = ("%", "S.*", formatString) ∨ KeepsSound function := by
  simp only [functions, forall_mem_append]
  refine ⟨⟨⟨fun function member => .inr (keepsSound_colorFunctions function member),
    fun function member => .inr (keepsSound_numberFunctions function member)⟩,
    fun function member => .inr (keepsSound_testFunctions function member)⟩, ?_⟩
  simp only [stringFunctions, forall_mem_cons]
  exact ⟨.inr fun _ each => stringAt_ne each 0, .inr fun _ each => percentEscape_ne (stringAt_ne each 0), .inl trivial,
    forall_mem_nil _⟩

/-- A string with filled placeholders can be scanned back if there is no backslash and no end of a line
in the format and in what is shown of the values. -/
theorem literal_formatString {format : String} {quote : Text.Quote} {values : List Value}
    (smooth : ∀ c ∈ format.toList, c ≠ '\\' ∧ c ≠ '\n')
    (shown : ∀ value ∈ values, ∀ mark, ∀ c ∈ (placeholderText mark value).toList, c ≠ '\\' ∧ c ≠ '\n') :
    Text.Literal (formatString (.string format (some quote) :: values)).css := by
  refine Text.Quote.literal_write ?_
  rw [String.toList_ofList]
  exact forall_mem_fill smooth shown

/-- No backslash and no end of a line is in the format or in what is shown, and filled it is not a percent sign. -/
def Smooth : List Value → Prop
  | .string format _ :: values => (∀ c ∈ format.toList, c ≠ '\\' ∧ c ≠ '\n') ∧
      (∀ value ∈ values, ∀ mark, ∀ c ∈ (placeholderText mark value).toList, c ≠ '\\' ∧ c ≠ '\n') ∧
      fill format.toList values ≠ ['%']
  | _ => True

theorem Smooth.sound_formatString {arguments : List Value} (smooth : Smooth arguments) :
    (formatString arguments).Sound := by
  have keyword : (Value.keyword "").Sound := (by decide : "" ≠ "%")
  cases arguments with
  | nil => exact keyword
  | cons first values =>
    cases first with
    | string format quote =>
      have other : String.ofList (fill format.toList values) ≠ "%" := by
        intro same
        have spelled := congrArg String.toList same
        rw [String.toList_ofList] at spelled
        exact smooth.2.2 spelled
      cases quote with
      | none => exact other
      | some quote => exact ⟨other, literal_formatString smooth.1 smooth.2.1⟩
    | quantity | unit | color | url | boolean => exact keyword

end Builtin

theorem Text.eq_of_toLower {text : String} (same : text.toLower = "%") : text = "%" := by
  have letter (c : Char) (same : c.toLower = '%') : c = '%' := by
    by_cases upper : c.val ≥ 65 ∧ c.val ≤ 90
    · have number : c.toLower.val = c.val + 32 := congrArg Char.val (dif_pos upper)
      rw [same] at number
      have sum : (37 : UInt32) = c.val + 32 := number
      grind
    · exact (dif_neg upper : c.toLower = c).symm.trans same
  have spelled := toList_toLower text
  rw [same] at spelled
  obtain ⟨c, only, lower⟩ := map_eq_singleton_iff.mp spelled.symm
  rw [letter c lower] at only
  exact String.toList_inj.mp only

/-- The call of a function keeps strings sound, if placeholders are filled smoothly. -/
theorem Library.sound_call {name : Token} {arguments : List Value} (smooth : name.text = "%" → Builtin.Smooth arguments)
    (each : ∀ argument ∈ arguments, argument.Sound) :
    Returns (Library.builtin.call name.text name arguments) Value.Sound := by
  rw [Library.call]
  cases found : Library.builtin.find? name.text with
  | none => exact returns_error
  | some function =>
    dsimp only
    split
    · obtain ⟨entry, known, spelled⟩ := mem_map.mp (mem_of_find? found)
      obtain ⟨lower, rfl⟩ := Prod.mk.inj spelled
      rcases Builtin.keepsSound_functions entry known with rfl | sound
      · exact returns_ok (smooth (eq_of_toLower lower.symm)).sound_formatString
      · exact returns_ok (sound arguments each)
    · exact returns_error

end LessCss
