import LessCss.Function.Builtin

/-! Opening braces in texts and values. Main statements: what is written for a value
has a brace only if the value was made from a text with one, and neither operations
nor the built-in functions bring one in. -/

set_option autoImplicit false

namespace LessCss

open List

namespace Text

def Unbraced (text : String) : Prop := '\x7b' ∉ text.toList

instance (text : String) : Decidable (Unbraced text) := inferInstanceAs (Decidable ('\x7b' ∉ text.toList))

@[simp] theorem unbraced_append (first second : String) :
    Unbraced (first ++ second) ↔ Unbraced first ∧ Unbraced second := by
  simp [Unbraced]

@[simp] theorem unbraced_ofList (cs : List Char) : Unbraced (String.ofList cs) ↔ '\x7b' ∉ cs := by
  simp [Unbraced]

theorem mem_unescape {quote : Quote} {cs : List Char} {c : Char} (member : c ∈ quote.unescape cs) : c ∈ cs := by
  induction cs with
  | nil => cases member
  | cons first rest ih =>
    rw [Quote.unescape] at member
    split at member
    · exact mem_cons_of_mem _ (ih member)
    · rcases mem_cons.mp member with rfl | inside
      · exact mem_cons_self
      · exact mem_cons_of_mem _ (ih inside)

theorem mem_unquote {text : String} {c : Char} (member : c ∈ (unquote text).1.toList) : c ∈ text.toList := by
  unfold unquote at member
  split at member
  · exact member
  · rename_i first rest same
    split at member
    · exact member
    · split at member
      · rw [String.toList_ofList] at member
        rw [same]
        exact mem_cons_of_mem _ ((dropLast_sublist _).mem (mem_unescape member))
      · exact member

theorem Unbraced.unquote {text : String} (free : Unbraced text) : Unbraced (Text.unquote text).1 :=
  fun member => free (mem_unquote member)

theorem mem_trimChars {cs : List Char} {c : Char} (member : c ∈ trimChars cs) : c ∈ cs := by
  have inside := (dropWhile_sublist _).mem (mem_reverse.mp member)
  exact (dropWhile_sublist _).mem (mem_reverse.mp inside)

theorem Unbraced.writeQuoted {text : String} (free : Unbraced text) (quote : Option Quote) :
    Unbraced (Text.writeQuoted text quote) := by
  cases quote with
  | none => exact free
  | some quote =>
    have other : '\x7b' ≠ quote.char := by cases quote <;> decide
    have inside : '\x7b' ∉ quote.escape text.toList := by
      intro member
      obtain ⟨c, inside, written⟩ := mem_flatMap.mp member
      split at written
      · rename_i same
        subst same
        simp [other] at written
      · exact free (mem_singleton.mp written ▸ inside)
    rw [Text.writeQuoted, Quote.write, unbraced_ofList]
    simp [other, inside]

theorem digitChar_ne_brace (n : Nat) : n.digitChar ≠ '\x7b' ∧ n.digitChar.toUpper ≠ '\x7b' := by
  have low : ∀ m < 16, m.digitChar ≠ '\x7b' ∧ m.digitChar.toUpper ≠ '\x7b' := by decide
  by_cases small : n < 16
  · exact low n small
  · have high : n.digitChar = '*' := by
      unfold Nat.digitChar
      simp (disch := omega) only [if_neg]
    rw [high]
    decide

theorem Unbraced.percentEscape {text : String} (free : Unbraced text) : Unbraced (Text.percentEscape text) := by
  rw [Text.percentEscape, unbraced_ofList]
  intro member
  obtain ⟨c, inside, written⟩ := mem_flatMap.mp member
  split at written
  · have code (n : Nat) := (digitChar_ne_brace n).2.symm
    simp [percentCode, hexDigitUpper, code] at written
  · exact free (mem_singleton.mp written ▸ inside)

end Text

open Text (Unbraced)

/-! ### Numbers and colors -/

theorem Decimal.brace_notMem_toDigits (n : Nat) : '\x7b' ∉ Nat.toDigits 10 n := by
  intro member
  have digit := Nat.isDigit_of_mem_toDigits (by decide) (by decide) member
  cases digit

theorem Decimal.unbraced_writeUnits (negative : Bool) (units : Nat) : Unbraced (writeUnits negative units) := by
  have fraction : '\x7b' ∉ dropZeros (padded places (units % tenTo places)) := by
    intro member
    have padded := (dropWhile_sublist _).mem (mem_reverse.mp member)
    rw [mem_reverse, Decimal.padded, mem_append, mem_replicate] at padded
    rcases padded with ⟨_, zero⟩ | digit
    · cases zero
    · exact brace_notMem_toDigits _ digit
  rw [writeUnits, Text.unbraced_ofList]
  simp only [mem_append, not_or]
  refine ⟨⟨by split <;> simp, brace_notMem_toDigits _⟩, ?_⟩
  split
  · simp
  · simp [fraction]

theorem Decimal.unbraced_write (x : Float) : Unbraced (write x) := by
  rw [write]
  split
  · decide
  · split
    · exact unbraced_writeUnits _ _
    · split <;> decide
    · decide

namespace Color

theorem unbraced_hexText (bytes : List Nat) : Unbraced (hexText bytes) := by
  have digit (n : Nat) := (Text.digitChar_ne_brace n).1.symm
  rw [hexText, Text.unbraced_ofList]
  simp [hexByte, digit]

theorem unbraced_rgbaText (color : Color) : Unbraced color.rgbaText := by
  have digits (n : Nat) : Unbraced (toString n) := by
    rw [Nat.toString_eq_ofList_toDigits, Text.unbraced_ofList]
    exact Decimal.brace_notMem_toDigits n
  have literals : Unbraced "rgba(" ∧ Unbraced ", " ∧ Unbraced ")" := by decide
  simp only [rgbaText, Text.unbraced_append, digits, Decimal.unbraced_write, literals, and_self]

def Unbraced (color : Color) : Prop := ∀ spelling ∈ color.spelling, Text.Unbraced spelling

theorem unbraced_rgba (red green blue alpha : Float) : (rgba red green blue alpha).Unbraced := nofun

theorem unbraced_toColor (hsl : Hsl) (alpha : Float) : (hsl.toColor alpha).Unbraced := by
  rw [Hsl.toColor]
  dsimp only
  split <;> exact unbraced_rgba _ _ _ _

theorem unbraced_withHsl (color : Color) (change : Hsl → Hsl) : (color.withHsl change).Unbraced :=
  unbraced_toColor _ _

theorem unbraced_greyscale (color : Color) : color.greyscale.Unbraced := by
  rw [greyscale, desaturate]
  exact unbraced_withHsl _ _

theorem unbraced_fade (color : Color) (alpha : Float) : (color.fade alpha).Unbraced := nofun

theorem unbraced_mix (first second : Color) (weight : Float) : (mix first second weight).Unbraced := nofun

theorem unbraced_blend (mode : Float → Float → Float) (below above : Color) : (blend mode below above).Unbraced :=
  nofun

theorem Unbraced.css {color : Color} (free : color.Unbraced) : Text.Unbraced color.css := by
  rw [Color.css]
  split
  · rename_i spelling found
    exact free spelling found
  · split
    · exact unbraced_hexText _
    · exact unbraced_rgbaText color

theorem contrast_cases (color dark light : Color) (threshold : Float) :
    color.contrast dark light threshold = dark ∨ color.contrast dark light threshold = light := by
  rw [Color.contrast]
  split
  · split <;> simp
  · split <;> simp

theorem Unbraced.contrast {color dark light : Color} (free : dark.Unbraced) (free' : light.Unbraced)
    (threshold : Float) : (color.contrast dark light threshold).Unbraced := by
  rcases color.contrast_cases dark light threshold with same | same
  · rwa [same]
  · rwa [same]

end Color

/-! ### Values -/

namespace Value

def Unbraced : Value → Prop
  | .quantity q => Text.Unbraced q.unit
  | .unit name => Text.Unbraced name
  | .color c => c.Unbraced
  | .string text _ => Text.Unbraced text
  | .url inner _ => Text.Unbraced inner
  | .boolean _ => True

theorem Unbraced.css {value : Value} (free : value.Unbraced) : Text.Unbraced value.css := by
  cases value with
  | quantity quantity =>
    rw [Value.css, Quantity.css, Text.unbraced_append]
    exact ⟨Decimal.unbraced_write _, free⟩
  | unit name => exact free
  | color color => exact Color.Unbraced.css free
  | string text quote => exact Text.Unbraced.writeQuoted free quote
  | url url quote =>
    have literals : Text.Unbraced "url(" ∧ Text.Unbraced ")" := by decide
    simp only [Value.css, Text.unbraced_append, literals, true_and, and_true]
    exact Text.Unbraced.writeQuoted free quote
  | boolean truth => cases truth <;> decide

theorem Unbraced.plain {value : Value} (free : value.Unbraced) : Text.Unbraced value.plain := by
  cases value with
  | string text quote => exact free
  | quantity | unit | color | url | boolean => exact free.css

section

variable {text : String} (free : Text.Unbraced text)

include free

theorem unbraced_ofStringLiteral : (ofStringLiteral text).Unbraced :=
  free.unquote

theorem exists_ofUrlLiteral : ∃ inner quote, ofUrlLiteral text = .url inner quote ∧ Text.Unbraced inner := by
  have inside : Text.Unbraced (String.ofList (Text.trimChars (urlInner text.toList))) := by
    rw [Text.unbraced_ofList]
    intro member
    have inner := Text.mem_trimChars member
    unfold urlInner at inner
    split at inner
    · exact free inner
    · rename_i same
      apply free
      apply (dropWhile_sublist (· != '(')).mem
      rw [same]
      exact mem_cons_of_mem _ ((dropLast_sublist _).mem inner)
  have unquoted := inside.unquote
  rw [ofUrlLiteral]
  generalize Text.unquote (String.ofList (Text.trimChars (urlInner text.toList))) = parts at unquoted ⊢
  exact ⟨parts.1, parts.2, rfl, unquoted⟩

theorem unbraced_ofIdentifier : (ofIdentifier text).Unbraced := by
  rw [ofIdentifier]
  split
  · trivial
  split
  · trivial
  split
  · exact free
  split
  · rename_i color found
    intro spelling same
    rw [Color.ofName?] at found
    split at found
    · cases found
      cases same
      exact free
    · obtain ⟨_, _, rfl⟩ := Option.map_eq_some_iff.mp found
      cases same
      exact free
  · exact free

theorem unbraced_ofHash : (ofHash text).Unbraced := by
  rw [ofHash]
  split
  · rename_i color found
    intro spelling same
    unfold Color.ofHash? at found
    split at found
    · obtain ⟨_, _, rfl⟩ := Option.map_eq_some_iff.mp found
      cases same
      exact free
    · cases found
  · exact free

theorem unbraced_ofNumeric : (ofNumeric text).Unbraced := by
  rw [ofNumeric]
  split
  · rename_i quantity found
    unfold Quantity.read? at found
    split at found
    · split at found
      · rename_i unit
        cases found
        rw [Unbraced, Text.unbraced_ofList]
        intro member
        -- A unit is a percent sign or has letters only.
        rw [Quantity.isUnitText, Bool.or_eq_true, beq_iff_eq, all_eq_true] at unit
        rcases unit with rfl | letters
        · simp at member
        · cases letters _ member
      · cases found
    · cases found
  · exact free

end

end Value

/-! ### Operations and functions -/

theorem Quantity.unbraced_jointUnit {a b : Quantity} (free : Unbraced a.unit) (free' : Unbraced b.unit) :
    Unbraced (a.jointUnit b) := by
  rw [jointUnit]
  split
  · exact free'
  · exact free

namespace Value

/-- What an operation can give: a truth value, a number with the unit of an operand, or a color without a spelling. -/
theorem operate_cases {lhs rhs value : Value} {op : Operator} (done : lhs.operate op rhs = .ok value) :
    (∃ truth, value = .boolean truth) ∨
      (∃ a b x, lhs = .quantity a ∧ rhs = .quantity b ∧ value = .quantity ⟨x, a.jointUnit b⟩) ∨
      ∃ red green blue alpha, value = .color (.rgba red green blue alpha) := by
  rw [Value.operate] at done
  split at done
  · unfold compare at done
    split at done
    · cases done
      exact .inl ⟨_, rfl⟩
    · split at done <;> cases done
      exact .inl ⟨_, rfl⟩
  · -- A color and a number give a color, on whichever side the number stands.
    have number (color : Color) (x : Float) (made : (color.operateNumber op x).map Value.color = .ok value) :
        ∃ red green blue alpha, value = .color (.rgba red green blue alpha) := by
      rw [Color.operateNumber] at made
      split at made
      · cases made
      · cases made
        exact ⟨_, _, _, _, rfl⟩
    cases lhs with
    | quantity a =>
      cases rhs with
      | quantity b =>
        rw [calculate, Quantity.operate] at done
        split at done
        · cases done
        · cases done
          exact .inr (.inl ⟨a, b, _, rfl, rfl, rfl⟩)
      | color b =>
        rw [calculate] at done
        split at done
        · exact .inr (.inr (number b a.value done))
        · cases done
      | _ => cases done
    | color a =>
      cases rhs with
      | quantity b => exact .inr (.inr (number a b.value done))
      | color b =>
        cases done
        exact .inr (.inr ⟨_, _, _, _, rfl⟩)
      | _ => cases done
    | _ => cases rhs <;> cases done

theorem Unbraced.operate {lhs rhs value : Value} (free : lhs.Unbraced) (free' : rhs.Unbraced) {op : Operator}
    (done : lhs.operate op rhs = .ok value) : value.Unbraced := by
  rcases operate_cases done with ⟨truth, rfl⟩ | ⟨a, b, x, rfl, rfl, rfl⟩ | ⟨red, green, blue, alpha, rfl⟩
  · trivial
  · exact Quantity.unbraced_jointUnit free free'
  · exact Color.unbraced_rgba _ _ _ _

end Value

def Library.Unbraced (library : Library) : Prop :=
  ∀ entry ∈ library.entries, ∀ arguments : List Value, (∀ argument ∈ arguments, argument.Unbraced) →
    (entry.2.apply arguments).Unbraced

theorem Library.mem_of_find? {library : Library} {name : String} {function : Function}
    (found : library.find? name = some function) : (name.toLower, function) ∈ library.entries := by
  obtain ⟨before, after, same, _⟩ := lookup_eq_some_iff.mp found
  simp [same]

theorem Library.Unbraced.find {library : Library} (free : library.Unbraced) {name : String} {function : Function}
    (found : library.find? name = some function) {arguments : List Value}
    (each : ∀ argument ∈ arguments, argument.Unbraced) : (function.apply arguments).Unbraced := by
  exact free _ (mem_of_find? found) arguments each

namespace Builtin

variable {arguments : List Value} (each : ∀ argument ∈ arguments, argument.Unbraced)

include each

theorem unbraced_at (i : Nat) : ∀ value ∈ arguments[i]?, value.Unbraced :=
  fun value found => each value (mem_of_getElem? found)

theorem unbraced_colorOr (i : Nat) {other : Color} (free : other.Unbraced) :
    (colorOr arguments i other).Unbraced := by
  rw [colorOr]
  split
  · rename_i color found
    exact unbraced_at each i _ found
  · exact free

theorem unbraced_stringAt (i : Nat) : Unbraced (stringAt arguments i) := by
  rw [stringAt]
  split
  · rename_i value found
    exact (unbraced_at each i _ found).plain
  · decide

theorem unbraced_unitAt (i : Nat) : Unbraced (unitAt arguments i) := by
  rw [unitAt]
  split
  · rename_i name found
    exact unbraced_at each i _ found
  · rename_i text quote found
    exact unbraced_at each i _ found
  · decide

theorem unbraced_onNumber (change : Float → Float) : (onNumber change arguments).Unbraced := by
  rw [onNumber]
  split
  · rename_i quantity found
    have free : (Value.quantity quantity).Unbraced := each _ (mem_of_head? found)
    exact free
  · exact (by decide : Unbraced "")

omit each in
theorem unbraced_placeholderText (c : Char) {value : Value} (free : value.Unbraced) :
    Unbraced (placeholderText c value) := by
  have text : Unbraced (if c.toLower == 's' then value.plain else value.css) := by
    split
    · exact free.plain
    · exact free.css
  rw [placeholderText]
  split
  · exact text.percentEscape
  · exact text

omit each in
/-- Each character comes from the format, or from what a placeholder shows of a value. -/
theorem forall_mem_fill {fits : Char → Prop} {cs : List Char} {values : List Value} (format : ∀ c ∈ cs, fits c)
    (shown : ∀ value ∈ values, ∀ mark, ∀ c ∈ (placeholderText mark value).toList, fits c) : ∀ c ∈ fill cs values, fits c := by
  fun_induction fill cs values with
  | case1 => exact format
  | case2 c rest value values _ ih =>
    obtain ⟨first, others⟩ := forall_mem_cons.mp shown
    have behind := (forall_mem_cons.mp (forall_mem_cons.mp format).2).2
    exact forall_mem_append.mpr ⟨first c, ih behind others⟩
  | case3 c rest _ ih =>
    obtain ⟨first, others⟩ := forall_mem_cons.mp format
    obtain ⟨second, further⟩ := forall_mem_cons.mp others
    exact forall_mem_cons.mpr ⟨first, forall_mem_cons.mpr ⟨second, ih further shown⟩⟩
  | case4 c rest values _ _ ih =>
    obtain ⟨first, others⟩ := forall_mem_cons.mp format
    exact forall_mem_cons.mpr ⟨first, ih (forall_mem_cons.mp others).2 shown⟩
  | case5 c rest values _ _ ih =>
    obtain ⟨first, others⟩ := forall_mem_cons.mp format
    exact forall_mem_cons.mpr ⟨first, ih others shown⟩
  | case6 c rest values _ ih =>
    obtain ⟨first, others⟩ := forall_mem_cons.mp format
    exact forall_mem_cons.mpr ⟨first, ih others shown⟩

theorem unbraced_formatString : (formatString arguments).Unbraced := by
  unfold formatString
  split
  · rename_i text quote values
    obtain ⟨first, others⟩ := forall_mem_cons.mp each
    rw [Value.Unbraced, Text.unbraced_ofList]
    have each : ∀ c ∈ fill text.toList values, c ≠ '\x7b' := forall_mem_fill
      (fun c inside same => first (same ▸ inside))
      fun value inside mark c shown same => unbraced_placeholderText mark (others value inside) (same ▸ shown)
    exact fun member => each _ member rfl
  · exact (by decide : Unbraced "")

omit each

def Harmless (function : String × String × (List Value → Value)) : Prop :=
  ∀ arguments, (∀ argument ∈ arguments, argument.Unbraced) → (function.2.2 arguments).Unbraced

theorem harmless_byRatio {name signature : String} {adjust : Color → Float → Color}
    (free : ∀ color ratio, (adjust color ratio).Unbraced) : Harmless (name, signature, byRatio adjust) :=
  fun _ _ => free _ _

theorem harmless_ofColors {name signature : String} {blend : Color → Color → Color}
    (free : ∀ below above, (blend below above).Unbraced) : Harmless (name, signature, ofColors blend) :=
  fun _ _ => free _ _

theorem harmless_colorNumber {name signature unit : String} (free : Text.Unbraced unit) (measure : Color → Float) :
    Harmless (name, signature, colorNumber measure unit) :=
  fun _ _ => free

theorem harmless_contrast {name signature : String} : Harmless (name, signature, contrast) := by
  intro arguments each
  have dark := unbraced_colorOr each 1 (Color.unbraced_rgba 0 0 0 1)
  have light := unbraced_colorOr each 2 (Color.unbraced_rgba 255 255 255 1)
  exact Color.Unbraced.contrast dark light _

theorem harmless_colorFunctions : ∀ function ∈ colorFunctions, Harmless function := by
  have empty : Text.Unbraced "" := by decide
  have percent : Text.Unbraced "%" := by decide
  simp only [colorFunctions, forall_mem_cons]
  exact ⟨fun _ _ => Color.unbraced_rgba _ _ _ _, fun _ _ => Color.unbraced_rgba _ _ _ _,
    fun _ _ => Color.unbraced_toColor _ _, fun _ _ => Color.unbraced_toColor _ _,
    harmless_byRatio fun _ _ => Color.unbraced_withHsl _ _, harmless_byRatio fun _ _ => Color.unbraced_withHsl _ _,
    harmless_byRatio fun _ _ => Color.unbraced_withHsl _ _, harmless_byRatio fun _ _ => Color.unbraced_withHsl _ _,
    harmless_byRatio fun _ _ => Color.unbraced_fade _ _, harmless_byRatio fun _ _ => Color.unbraced_fade _ _,
    harmless_byRatio fun _ _ => Color.unbraced_fade _ _, fun _ _ => Color.unbraced_withHsl _ _,
    fun _ _ => Color.unbraced_mix _ _ _, fun _ _ => Color.unbraced_greyscale _, harmless_contrast,
    harmless_colorNumber empty _, harmless_colorNumber percent _, harmless_colorNumber percent _,
    harmless_colorNumber empty _, harmless_colorNumber empty _, harmless_colorNumber empty _,
    harmless_colorNumber empty _, fun _ _ => Color.unbraced_hexText _,
    harmless_ofColors fun _ _ => Color.unbraced_blend _ _ _, harmless_ofColors fun _ _ => Color.unbraced_blend _ _ _,
    harmless_ofColors fun _ _ => Color.unbraced_blend _ _ _, forall_mem_nil _⟩

theorem harmless_numberFunctions : ∀ function ∈ numberFunctions, Harmless function := by
  have changed {name signature : String} (change : Float → Float) : Harmless (name, signature, onNumber change) :=
    fun _ each => unbraced_onNumber each change
  have rounded {name signature : String} : Harmless (name, signature, round) := by
    intro arguments each
    change (round arguments).Unbraced
    rw [round]
    exact unbraced_onNumber each _
  have percent : Text.Unbraced "%" := by decide
  simp only [numberFunctions, forall_mem_cons]
  exact ⟨fun _ each => unbraced_unitAt each 1, changed _, changed _, changed _, changed _, rounded,
    fun _ _ => percent, nofun⟩

theorem harmless_testFunctions : ∀ function ∈ testFunctions, Harmless function := by
  have tested {name signature : String} (holds : Value → Bool) : Harmless (name, signature, test holds) :=
    fun _ _ => trivial
  simp only [testFunctions, forall_mem_cons]
  exact ⟨tested _, tested _, tested _, tested _, tested _, tested _, tested _, tested _, fun _ _ => trivial, nofun⟩

theorem harmless_stringFunctions : ∀ function ∈ stringFunctions, Harmless function := by
  simp only [stringFunctions, forall_mem_cons]
  exact ⟨fun _ each => unbraced_stringAt each 0, fun _ each => (unbraced_stringAt each 0).percentEscape,
    fun _ each => unbraced_formatString each, nofun⟩

end Builtin

theorem Library.unbraced_builtin : Library.builtin.Unbraced := by
  have harmless : ∀ function ∈ Builtin.functions, Builtin.Harmless function := by
    simp only [Builtin.functions, forall_mem_append]
    exact ⟨⟨⟨Builtin.harmless_colorFunctions, Builtin.harmless_numberFunctions⟩, Builtin.harmless_testFunctions⟩,
      Builtin.harmless_stringFunctions⟩
  intro entry member
  obtain ⟨function, known, rfl⟩ := mem_map.mp member
  exact harmless function known

end LessCss
