import LessCss.Function.Builtin
import Mathlib.Data.List.Nodup
import Mathlib.Data.List.TakeWhile

/-! Where the arguments of a function stand. Main statement: what the signature of a built-in
function accepts stands where the function reads it, and the function uses each argument as one
of its type. There is one exception: a threshold of `contrast` behind fewer than three colors is
accepted and has no effect. -/

set_option autoImplicit false

namespace LessCss

open List Signature

/-! ### Signatures -/

namespace Signature

/-- The type at the index of an argument. A type that repeats at the end stands for all further ones. -/
def typeAt? : Signature → Nat → Option ArgumentType
  | [], _ => none
  | [⟨type, .repeated⟩], _ => some type
  | formal :: _, 0 => some formal.type
  | _ :: rest, i + 1 => typeAt? rest i

def InPlace (signature : Signature) (arguments : List Value) : Prop :=
  ∀ (i : Nat) (argument : Value), arguments[i]? = some argument →
    ∃ type, signature.typeAt? i = some type ∧ type.fits argument = true

/-- Only the last argument may be left out or repeated. -/
def isSteady : Signature → Bool
  | formal :: second :: rest => formal.occurrence == .once && isSteady (second :: rest)
  | _ => true

variable {rest : Signature} {type : ArgumentType} {arguments : List Value}

theorem accepts_nil (accepted : accepts [] arguments = true) : arguments = [] := by
  rwa [accepts, List.isEmpty_iff] at accepted

theorem accepts_once (accepted : accepts (⟨type, .once⟩ :: rest) arguments = true) :
    ∃ first others, arguments = first :: others ∧ type.fits first = true ∧ accepts rest others = true := by
  cases arguments with
  | nil => cases accepted
  | cons first others =>
    rw [accepts, Bool.and_eq_true] at accepted
    exact ⟨first, others, rfl, accepted⟩

theorem accepts_optional (accepted : accepts (⟨type, .optional⟩ :: rest) arguments = true) :
    accepts rest arguments = true ∨
      ∃ first others, arguments = first :: others ∧ type.fits first = true ∧ accepts rest others = true := by
  cases arguments with
  | nil => exact .inl accepted
  | cons first others =>
    rw [accepts] at accepted
    split at accepted
    · rename_i fits
      exact .inr ⟨first, others, rfl, fits, accepted⟩
    · exact .inl accepted

theorem inPlace_nil (signature : Signature) : signature.InPlace [] := by
  intro i argument found
  simp at found

theorem inPlace_cons_iff {occurrence : Occurrence} {first : Value} (more : occurrence = .repeated → rest ≠ []) :
    InPlace (⟨type, occurrence⟩ :: rest) (first :: arguments) ↔ type.fits first = true ∧ InPlace rest arguments := by
  -- Only a repeated type that is the last one stands for more than one place.
  have different (last : ArgumentType) : (⟨type, occurrence⟩ : Formal) = ⟨last, .repeated⟩ → rest = [] → False :=
    fun same none_ => more (congrArg Formal.occurrence same) none_
  have front : typeAt? (⟨type, occurrence⟩ :: rest) 0 = some type := by
    rw [typeAt?]
    exact different
  have behind (i : Nat) : typeAt? (⟨type, occurrence⟩ :: rest) (i + 1) = typeAt? rest i := by
    rw [typeAt?]
    exact different
  constructor
  · intro place
    obtain ⟨type', same, fits⟩ := place 0 first rfl
    rw [front] at same
    cases same
    exact ⟨fits, fun i argument found => behind i ▸ place (i + 1) argument found⟩
  · rintro ⟨fits, others⟩ i argument found
    cases i with
    | zero =>
      cases found
      exact ⟨type, front, fits⟩
    | succ i =>
      rw [behind]
      exact others i argument found

theorem inPlace_of_isSteady {signature : Signature} (steady : signature.isSteady = true)
    (accepted : signature.accepts arguments = true) : signature.InPlace arguments := by
  induction signature generalizing arguments with
  | nil =>
    cases accepts_nil accepted
    exact inPlace_nil []
  | cons formal rest ih =>
    obtain ⟨type, occurrence⟩ := formal
    -- Where only the last type may be left out or repeated, nothing that is accepted can shift.
    cases occurrence with
    | once =>
      obtain ⟨first, others, rfl, fits, accepted⟩ := accepts_once accepted
      refine (inPlace_cons_iff (by simp)).mpr ⟨fits, ih ?_ accepted⟩
      cases rest with
      | nil => rfl
      | cons second rest => exact steady
    | optional =>
      cases rest with
      | cons second rest => cases steady
      | nil =>
        rcases accepts_optional accepted with none_ | ⟨first, others, rfl, fits, none_⟩
        · cases accepts_nil none_
          exact inPlace_nil _
        · cases accepts_nil none_
          exact (inPlace_cons_iff (by simp)).mpr ⟨fits, inPlace_nil []⟩
    | repeated =>
      cases rest with
      | cons second rest => cases steady
      | nil =>
        have each : arguments.dropWhile type.fits = [] := accepts_nil accepted
        rw [dropWhile_eq_nil_iff] at each
        intro i argument found
        exact ⟨type, rfl, each argument (mem_of_getElem? found)⟩

end Signature

/-! ### Arguments taken one after the other -/

/-- What is made of arguments that are taken from first to last, each as one of a type. There is
nothing if an argument of another type comes next, or if one is left over. -/
abbrev Taking := List Value → Option Value

namespace Taking

def done (value : Value) : Taking
  | [] => some value
  | _ => none

def color (next : Color → Taking) : Taking
  | .color color :: rest => next color rest
  | _ => none

def number (next : Quantity → Taking) : Taking
  | .quantity quantity :: rest => next quantity rest
  | _ => none

def string (next : String → Option Text.Quote → Taking) : Taking
  | .string text quote :: rest => next text quote rest
  | _ => none

def unit (next : String → Taking) : Taking
  | .unit name :: rest => next name rest
  | .string text none :: rest => next text rest
  | _ => none

def any (next : Value → Taking) : Taking
  | value :: rest => next value rest
  | [] => none

def all (make : List Value → Value) : Taking :=
  fun arguments => some (make arguments)

def orElse {α : Type} (other : α) (take : (α → Taking) → Taking) (next : α → Taking) : Taking
  | [] => next other []
  | arguments => take next arguments

/-- Behind the arguments in front, those that the signature accepts are taken as the function uses them. -/
def Follows (signature : Signature) (taking : Taking) (apply : List Value → Value) (front : List Value) : Prop :=
  ∀ arguments, signature.accepts arguments = true → taking arguments = some (apply (front ++ arguments))

variable {rest : Signature} {apply : List Value → Value} {front : List Value}

theorem follows_done {value : Value} (same : apply front = value) : Follows [] (done value) apply front := by
  intro arguments accepted
  cases accepts_nil accepted
  rw [append_nil, same]
  rfl

/-- One argument is taken by what its type allows it to be. -/
theorem follows_once {type : ArgumentType} {taking : Taking}
    (step : ∀ first, type.fits first = true → ∃ next : Taking,
      (∀ others, taking (first :: others) = next others) ∧ Follows rest next apply (front ++ [first])) :
    Follows (⟨type, .once⟩ :: rest) taking apply front := by
  intro arguments accepted
  obtain ⟨first, others, rfl, fits, accepted⟩ := accepts_once accepted
  obtain ⟨next, taken, follows⟩ := step first fits
  rw [taken, follows others accepted, List.append_assoc]
  rfl

theorem follows_color {next : Color → Taking}
    (goesOn : ∀ color, Follows rest (next color) apply (front ++ [.color color])) :
    Follows (⟨.color, .once⟩ :: rest) (color next) apply front := by
  refine follows_once fun first fits => ?_
  cases first with
  | color color => exact ⟨next color, fun _ => rfl, goesOn color⟩
  | _ => cases fits

theorem follows_number {type : ArgumentType} {next : Quantity → Taking}
    (numeric : type = .number ∨ type = .percentage)
    (goesOn : ∀ quantity, Follows rest (next quantity) apply (front ++ [.quantity quantity])) :
    Follows (⟨type, .once⟩ :: rest) (number next) apply front := by
  refine follows_once fun first fits => ?_
  cases first with
  | quantity quantity => exact ⟨next quantity, fun _ => rfl, goesOn quantity⟩
  | _ => rcases numeric with rfl | rfl <;> cases fits

theorem follows_string {next : String → Option Text.Quote → Taking}
    (goesOn : ∀ text quote, Follows rest (next text quote) apply (front ++ [.string text quote])) :
    Follows (⟨.string, .once⟩ :: rest) (string next) apply front := by
  refine follows_once fun first fits => ?_
  cases first with
  | string text quote => exact ⟨next text quote, fun _ => rfl, goesOn text quote⟩
  | _ => cases fits

theorem follows_unit {next : String → Taking}
    (goesOn : ∀ name, Follows rest (next name) apply (front ++ [.unit name]))
    (goesOn' : ∀ name, Follows rest (next name) apply (front ++ [.string name none])) :
    Follows (⟨.unit, .once⟩ :: rest) (unit next) apply front := by
  refine follows_once fun first fits => ?_
  cases first with
  | unit name => exact ⟨next name, fun _ => rfl, goesOn name⟩
  | string text quote =>
    cases quote with
    | none => exact ⟨next text, fun _ => rfl, goesOn' text⟩
    | some quote => cases fits
  | _ => cases fits

theorem follows_any {next : Value → Taking} (goesOn : ∀ value, Follows rest (next value) apply (front ++ [value])) :
    Follows (⟨.any, .once⟩ :: rest) (any next) apply front :=
  follows_once fun first _ => ⟨next first, fun _ => rfl, goesOn first⟩

theorem follows_all {type : ArgumentType} {make : List Value → Value}
    (same : ∀ arguments, apply (front ++ arguments) = make arguments) :
    Follows [⟨type, .repeated⟩] (all make) apply front :=
  fun arguments _ => congrArg some (same arguments).symm

theorem follows_orElse {α : Type} {type : ArgumentType} {other : α} {take : (α → Taking) → Taking}
    {next : α → Taking} (absent : Follows [] (next other) apply front)
    (present : Follows [⟨type, .once⟩] (take next) apply front) :
    Follows [⟨type, .optional⟩] (orElse other take next) apply front := by
  intro arguments accepted
  cases arguments with
  | nil => exact absent [] rfl
  | cons first others =>
    rcases accepts_optional accepted with none_ | ⟨_, _, same, fits, none_⟩
    · cases accepts_nil none_
    · cases same
      cases accepts_nil none_
      exact present [first] (by rw [accepts, fits]; rfl)

end Taking

/-! ### The built-in functions -/

namespace Builtin

open Taking

def channelOf (quantity : Quantity) : Float :=
  if quantity.isPercentage then quantity.ratio * 255 else quantity.value

def alphaOf (quantity : Quantity) : Float :=
  if quantity.isPercentage then quantity.ratio else quantity.value

def hueOf (quantity : Quantity) : Float := oneTurn quantity.value / 360

def adjusted (adjust : Color → Float → Color) : Taking :=
  color fun base => number fun amount => done (.color (adjust base amount.ratio))

def blended (blend : Color → Color → Color) : Taking :=
  color fun first => color fun second => done (.color (blend first second))

def measured (measure : Color → Float) (unit : String) : Taking :=
  color fun base => done (.number (measure base) unit)

def changed (change : Float → Float) : Taking :=
  number fun quantity => done (.number (change quantity.value) quantity.unit)

def tested (holds : Value → Bool) : Taking :=
  any fun value => done (.boolean (holds value))

def contrasted : Taking :=
  color fun base => orElse (.rgba 0 0 0 1) color fun dark => orElse (.rgba 255 255 255 1) color fun light =>
    orElse 0.43 (fun next => number fun threshold => next threshold.ratio) fun threshold =>
      done (.color (Color.contrast base dark light threshold))

def colorTakings : List (String × Taking) :=
  [("rgb", number fun red => number fun green => number fun blue =>
      done (.color (.rgba (channelOf red) (channelOf green) (channelOf blue) 1))),
    ("rgba", number fun red => number fun green => number fun blue => number fun alpha =>
      done (.color (.rgba (channelOf red) (channelOf green) (channelOf blue) (alphaOf alpha)))),
    ("hsl", number fun hue => number fun saturation => number fun lightness =>
      done (.color (Hsl.toColor ⟨hueOf hue, saturation.ratio, lightness.ratio⟩ 1))),
    ("hsla", number fun hue => number fun saturation => number fun lightness => number fun alpha =>
      done (.color (Hsl.toColor ⟨hueOf hue, saturation.ratio, lightness.ratio⟩ (alphaOf alpha)))),
    ("lighten", adjusted Color.lighten),
    ("darken", adjusted Color.darken),
    ("saturate", adjusted Color.saturate),
    ("desaturate", adjusted Color.desaturate),
    ("fadein", adjusted Color.fadeIn),
    ("fadeout", adjusted Color.fadeOut),
    ("fade", adjusted Color.fade),
    ("spin", color fun base => number fun angle => done (.color (Color.spin base angle.value))),
    ("mix", color fun first => color fun second =>
      orElse 0.5 (fun next => number fun weight => next weight.ratio) fun weight =>
        done (.color (Color.mix first second weight))),
    ("greyscale", color fun base => done (.color base.greyscale)),
    ("contrast", contrasted),
    ("hue", measured (fun base => base.hueDegrees.round) ""),
    ("saturation", measured (fun base => (base.toHsl.saturation * 100).round) "%"),
    ("lightness", measured (fun base => (base.toHsl.lightness * 100).round) "%"),
    ("red", measured (fun base => base.red.round) ""),
    ("green", measured (fun base => base.green.round) ""),
    ("blue", measured (fun base => base.blue.round) ""),
    ("alpha", measured Color.alpha ""),
    ("argb", color fun base => done (.keyword base.argb)),
    ("overlay", blended Color.overlay),
    ("multiply", blended Color.multiply),
    ("screen", blended Color.screen)]

def numberTakings : List (String × Taking) :=
  [("unit", number fun quantity => orElse "" unit fun name => done (.number quantity.value name)),
    ("ceil", changed Float.ceil),
    ("floor", changed Float.floor),
    ("sqrt", changed Float.sqrt),
    ("abs", changed Float.abs),
    ("round", number fun quantity => orElse 0 (fun next => number fun places => next (Binary64.maximum places.value 0))
      fun places =>
        let factor := Binary64.power 10 (min places.toUInt32.toNat mostPlaces)
        done (.number ((quantity.value * factor).round / factor) quantity.unit)),
    ("percentage", number fun quantity => done (.number (quantity.value * 100) "%"))]

def testTakings : List (String × Taking) :=
  [("isnumber", tested ArgumentType.number.fits),
    ("iscolor", tested ArgumentType.color.fits),
    ("isstring", tested isQuotedString),
    ("iskeyword", tested isKeyword),
    ("isurl", tested ArgumentType.url.fits),
    ("ispixel", tested (hasUnit "px")),
    ("isem", tested (hasUnit "em")),
    ("ispercentage", tested (hasUnit "%")),
    ("isunit", any fun value => unit fun name => done (.boolean (hasUnit name value)))]

def stringTakings : List (String × Taking) :=
  [("e", string fun text _ => done (.keyword text)),
    ("escape", string fun text _ => done (.keyword (Text.percentEscape text))),
    ("%", string fun text quote => all fun values => .string (String.ofList (fill text.toList values)) quote)]

def takings : List (String × Taking) :=
  colorTakings ++ numberTakings ++ testTakings ++ stringTakings

def UsesAll (function : String × String × (List Value → Value)) : Prop :=
  ∃ taking, takings.lookup function.1 = some taking ∧ Follows (.read function.2.1) taking function.2.2 []

theorem follows_adjusted (adjust : Color → Float → Color) :
    Follows (.read "CP") (adjusted adjust) (byRatio adjust) [] :=
  follows_color fun _ => follows_number (.inr rfl) fun _ => follows_done rfl

theorem follows_blended (blend : Color → Color → Color) :
    Follows (.read "CC") (blended blend) (ofColors blend) [] :=
  follows_color fun _ => follows_color fun _ => follows_done rfl

theorem follows_measured (measure : Color → Float) (unit : String) :
    Follows (.read "C") (measured measure unit) (colorNumber measure unit) [] :=
  follows_color fun _ => follows_done rfl

theorem follows_changed (change : Float → Float) : Follows (.read "N") (changed change) (onNumber change) [] :=
  follows_number (.inl rfl) fun _ => follows_done rfl

theorem follows_tested (holds : Value → Bool) : Follows (.read ".") (tested holds) (test holds) [] :=
  follows_any fun _ => follows_done rfl

theorem usesAll_colorFunctions : ∀ function ∈ colorFunctions, function.1 ≠ "contrast" → UsesAll function := by
  simp only [colorFunctions, forall_mem_cons]
  refine ⟨fun _ => ⟨_, rfl, ?rgb⟩, fun _ => ⟨_, rfl, ?rgba⟩, fun _ => ⟨_, rfl, ?hsl⟩, fun _ => ⟨_, rfl, ?hsla⟩,
    fun _ => ⟨_, rfl, follows_adjusted _⟩, fun _ => ⟨_, rfl, follows_adjusted _⟩, fun _ => ⟨_, rfl, follows_adjusted _⟩,
    fun _ => ⟨_, rfl, follows_adjusted _⟩, fun _ => ⟨_, rfl, follows_adjusted _⟩, fun _ => ⟨_, rfl, follows_adjusted _⟩,
    fun _ => ⟨_, rfl, follows_adjusted _⟩, fun _ => ⟨_, rfl, ?spin⟩, fun _ => ⟨_, rfl, ?mix⟩,
    fun _ => ⟨_, rfl, ?greyscale⟩, fun other => absurd rfl other,
    fun _ => ⟨_, rfl, follows_measured _ _⟩, fun _ => ⟨_, rfl, follows_measured _ _⟩,
    fun _ => ⟨_, rfl, follows_measured _ _⟩, fun _ => ⟨_, rfl, follows_measured _ _⟩,
    fun _ => ⟨_, rfl, follows_measured _ _⟩, fun _ => ⟨_, rfl, follows_measured _ _⟩,
    fun _ => ⟨_, rfl, follows_measured _ _⟩, fun _ => ⟨_, rfl, ?argb⟩,
    fun _ => ⟨_, rfl, follows_blended _⟩, fun _ => ⟨_, rfl, follows_blended _⟩, fun _ => ⟨_, rfl, follows_blended _⟩,
    forall_mem_nil _⟩
  case rgb =>
    exact follows_number (.inl rfl) fun _ => follows_number (.inl rfl) fun _ => follows_number (.inl rfl) fun _ =>
      follows_done rfl
  case rgba =>
    exact follows_number (.inl rfl) fun _ => follows_number (.inl rfl) fun _ => follows_number (.inl rfl) fun _ =>
      follows_number (.inl rfl) fun _ => follows_done rfl
  case hsl =>
    exact follows_number (.inl rfl) fun _ => follows_number (.inr rfl) fun _ => follows_number (.inr rfl) fun _ =>
      follows_done rfl
  case hsla =>
    exact follows_number (.inl rfl) fun _ => follows_number (.inr rfl) fun _ => follows_number (.inr rfl) fun _ =>
      follows_number (.inl rfl) fun _ => follows_done rfl
  case spin => exact follows_color fun _ => follows_number (.inl rfl) fun _ => follows_done rfl
  case mix =>
    exact follows_color fun _ => follows_color fun _ => follows_orElse (follows_done rfl)
      (follows_number (.inr rfl) fun _ => follows_done rfl)
  case greyscale => exact follows_color fun _ => follows_done rfl
  case argb => exact follows_color fun _ => follows_done rfl

theorem usesAll_numberFunctions : ∀ function ∈ numberFunctions, UsesAll function := by
  simp only [numberFunctions, forall_mem_cons]
  refine ⟨⟨_, rfl, ?unit⟩, ⟨_, rfl, follows_changed _⟩, ⟨_, rfl, follows_changed _⟩, ⟨_, rfl, follows_changed _⟩,
    ⟨_, rfl, follows_changed _⟩, ⟨_, rfl, ?round⟩, ⟨_, rfl, ?percentage⟩, forall_mem_nil _⟩
  case unit =>
    exact follows_number (.inl rfl) fun _ => follows_orElse (follows_done rfl)
      (follows_unit (fun _ => follows_done rfl) fun _ => follows_done rfl)
  case round =>
    exact follows_number (.inl rfl) fun _ => follows_orElse (follows_done rfl)
      (follows_number (.inl rfl) fun _ => follows_done rfl)
  case percentage => exact follows_number (.inl rfl) fun _ => follows_done rfl

theorem usesAll_testFunctions : ∀ function ∈ testFunctions, UsesAll function := by
  simp only [testFunctions, forall_mem_cons]
  exact ⟨⟨_, rfl, follows_tested _⟩, ⟨_, rfl, follows_tested _⟩, ⟨_, rfl, follows_tested _⟩, ⟨_, rfl, follows_tested _⟩,
    ⟨_, rfl, follows_tested _⟩, ⟨_, rfl, follows_tested _⟩, ⟨_, rfl, follows_tested _⟩, ⟨_, rfl, follows_tested _⟩,
    ⟨_, rfl, follows_any fun _ => follows_unit (fun _ => follows_done rfl) fun _ => follows_done rfl⟩,
    forall_mem_nil _⟩

theorem usesAll_stringFunctions : ∀ function ∈ stringFunctions, UsesAll function := by
  simp only [stringFunctions, forall_mem_cons]
  exact ⟨⟨_, rfl, follows_string fun _ _ => follows_done rfl⟩, ⟨_, rfl, follows_string fun _ _ => follows_done rfl⟩,
    ⟨_, rfl, follows_string fun _ _ => follows_all fun _ => rfl⟩, forall_mem_nil _⟩

theorem usesAll_functions : ∀ function ∈ functions, function.1 ≠ "contrast" → UsesAll function := by
  simp only [functions, forall_mem_append]
  exact ⟨⟨⟨usesAll_colorFunctions, fun function member _ => usesAll_numberFunctions function member⟩,
    fun function member _ => usesAll_testFunctions function member⟩,
    fun function member _ => usesAll_stringFunctions function member⟩

theorem isSteady_functions :
    ∀ function ∈ functions, function.1 ≠ "contrast" → (read function.2.1).isSteady = true := by
  have each : (functions.all fun function =>
      function.1 == "contrast" || (read function.2.1).isSteady) = true := by decide +kernel
  intro function member other
  simpa [other] using all_eq_true.mp each function member

/-! ### Thresholds of `contrast` -/

def optionalColors (n : Nat) : Signature :=
  List.replicate n ⟨.color, .optional⟩ ++ [⟨.percentage, .optional⟩]

/-- At most `n` colors are accepted, and a threshold behind them or none. -/
theorem accepts_optionalColors {n : Nat} {arguments : List Value}
    (accepted : (optionalColors n).accepts arguments = true) :
    ∃ colors : List Color, colors.length ≤ n ∧ (arguments = colors.map .color ∨
      ∃ threshold, ArgumentType.percentage.fits (.quantity threshold) = true ∧
        arguments = colors.map .color ++ [.quantity threshold]) := by
  -- Where a color is left out, the arguments are those that one color less accepts.
  induction n generalizing arguments with
  | zero =>
    refine ⟨[], Nat.le_refl 0, ?_⟩
    rcases accepts_optional accepted with none_ | ⟨first, others, rfl, fits, none_⟩
    · exact .inl (accepts_nil none_)
    · cases accepts_nil none_
      cases first with
      | quantity threshold => exact .inr ⟨threshold, fits, rfl⟩
      | _ => cases fits
  | succ n ih =>
    rcases accepts_optional accepted with left | ⟨first, others, rfl, fits, left⟩
    · obtain ⟨colors, few, shape⟩ := ih left
      exact ⟨colors, Nat.le_succ_of_le few, shape⟩
    · obtain ⟨colors, few, shape⟩ := ih left
      cases first with
      | color color =>
        refine ⟨color :: colors, Nat.succ_le_succ few, ?_⟩
        rcases shape with rfl | ⟨threshold, fits', rfl⟩
        · exact .inl rfl
        · exact .inr ⟨threshold, fits', rfl⟩
      | _ => cases fits

theorem inPlace_optionalColors {n : Nat} {colors : List Color} (few : colors.length ≤ n) :
    (optionalColors n).InPlace (colors.map .color) := by
  induction n generalizing colors with
  | zero =>
    cases eq_nil_of_length_eq_zero (Nat.le_zero.mp few)
    exact inPlace_nil _
  | succ n ih =>
    cases colors with
    | nil => exact inPlace_nil _
    | cons color colors => exact (inPlace_cons_iff (by simp)).mpr ⟨rfl, ih (Nat.le_of_succ_le_succ few)⟩

/-- A threshold is in place if no color in front of it is left out. -/
theorem inPlace_threshold_iff {n : Nat} {colors : List Color} {threshold : Quantity} (few : colors.length ≤ n)
    (fits : ArgumentType.percentage.fits (.quantity threshold) = true) :
    (optionalColors n).InPlace (colors.map .color ++ [.quantity threshold]) ↔ colors.length = n := by
  induction n generalizing colors with
  | zero =>
    cases eq_nil_of_length_eq_zero (Nat.le_zero.mp few)
    exact iff_of_true ((inPlace_cons_iff (by simp)).mpr ⟨fits, inPlace_nil []⟩) rfl
  | succ n ih =>
    cases colors with
    | nil =>
      refine iff_of_false (fun place => ?_) (Nat.zero_ne_add_one n)
      cases ((inPlace_cons_iff (by simp)).mp place).1
    | cons color colors =>
      refine (inPlace_cons_iff (by simp)).trans ((and_iff_right rfl).trans ?_)
      exact (ih (Nat.le_of_succ_le_succ few)).trans Nat.succ_inj.symm

/-- A threshold of `contrast` behind fewer than three colors. -/
def EarlyThreshold (name : String) (arguments : List Value) : Prop :=
  name = "contrast" ∧ arguments.length < 4 ∧ ∃ threshold, arguments.getLast? = some (.quantity threshold)

/-- `contrast` uses all of its arguments where none is left out in front of the threshold, and does not use
the threshold elsewhere. -/
theorem contrast_cases {arguments : List Value} (accepted : (read "CC?C?P?").accepts arguments = true) :
    ¬EarlyThreshold "contrast" arguments ∧ (read "CC?C?P?").InPlace arguments ∧
        contrasted arguments = some (contrast arguments) ∨
      EarlyThreshold "contrast" arguments ∧ ¬(read "CC?C?P?").InPlace arguments ∧
        contrasted arguments = none ∧ contrast arguments = contrast arguments.dropLast := by
  obtain ⟨first, others, rfl, fits, accepted⟩ := accepts_once accepted
  cases first with
  | color base =>
    have place {others : List Value} :
        (read "CC?C?P?").InPlace (.color base :: others) ↔ (optionalColors 2).InPlace others :=
      (inPlace_cons_iff (by simp)).trans (and_iff_right rfl)
    obtain ⟨colors, few, shape⟩ := accepts_optionalColors (n := 2) accepted
    rcases shape with rfl | ⟨threshold, fits', rfl⟩
    · refine .inl ⟨?_, place.mpr (inPlace_optionalColors few), ?_⟩
      · rintro ⟨_, _, threshold, last⟩
        have found := mem_of_getLast? last
        simp at found
      · rcases colors with _ | ⟨dark, _ | ⟨light, _ | ⟨more, colors⟩⟩⟩
        · rfl
        · rfl
        · rfl
        · exact absurd few (by simp)
    · -- The function reads the threshold behind two colors, where alone it is in place.
      have place' := place.trans (inPlace_threshold_iff few fits')
      rcases colors with _ | ⟨dark, _ | ⟨light, _ | ⟨more, colors⟩⟩⟩
      · exact .inr ⟨⟨rfl, by simp, threshold, rfl⟩, by rw [place']; simp, rfl, rfl⟩
      · exact .inr ⟨⟨rfl, by simp, threshold, rfl⟩, by rw [place']; simp, rfl, rfl⟩
      · exact .inl ⟨fun early => absurd early.2.1 (by simp), place'.mpr rfl, rfl⟩
      · exact absurd few (by simp)
  | _ => cases fits

theorem eq_contrast {function : String × String × (List Value → Value)} (known : function ∈ functions)
    (named : function.1 = "contrast") : function = ("contrast", "CC?C?P?", contrast) := by
  have distinct : (functions.map Prod.fst).Nodup := by decide +kernel
  exact inj_on_of_nodup_map distinct known (by simp [functions, colorFunctions]) named

/-- What the signature of a built-in function accepts stands in place, and the function uses it argument by
argument. Only `contrast` accepts a threshold out of place, which it does not use. -/
theorem accepted_arguments_used {name : String} {function : Function}
    (member : (name, function) ∈ Library.builtin.entries) (arguments : List Value)
    (accepted : function.signature.accepts arguments = true) :
    ∃ taking, takings.lookup name = some taking ∧
      (¬EarlyThreshold name arguments →
        function.signature.InPlace arguments ∧ taking arguments = some (function.apply arguments)) ∧
      (EarlyThreshold name arguments → ¬function.signature.InPlace arguments ∧ taking arguments = none ∧
        function.apply arguments = function.apply arguments.dropLast) := by
  obtain ⟨entry, known, same⟩ := mem_map.mp member
  obtain ⟨rfl, rfl⟩ := Prod.mk.inj same
  by_cases contrasts : entry.1 = "contrast"
  · cases eq_contrast known contrasts
    refine ⟨contrasted, rfl, ?_⟩
    rcases contrast_cases accepted with ⟨timely, used⟩ | ⟨early, lost⟩
    · exact ⟨fun _ => used, fun early => absurd early timely⟩
    · exact ⟨fun timely => absurd early timely, fun _ => lost⟩
  · obtain ⟨taking, found, follows⟩ := usesAll_functions entry known contrasts
    refine ⟨taking, found, fun _ => ⟨?_, follows arguments accepted⟩, fun early => absurd early.1 contrasts⟩
    exact inPlace_of_isSteady (isSteady_functions entry known contrasts) accepted

def green : Value := .color ⟨0, 255, 0, 1, none⟩

def wholeContrast : List Value := [green, green, green, .number 90 "%"]

def shortContrast : List Value := [green, .number 90 "%"]

theorem contrast_mem_builtin : ("contrast", ⟨.read "CC?C?P?", contrast⟩) ∈ Library.builtin.entries := by
  refine mem_map.mpr ⟨("contrast", "CC?C?P?", contrast), ?_, rfl⟩
  simp [functions, colorFunctions]

theorem wholeContrast_used : (read "CC?C?P?").accepts wholeContrast = true ∧
    ¬EarlyThreshold "contrast" wholeContrast ∧ (read "CC?C?P?").InPlace wholeContrast ∧
      ∃ taking, takings.lookup "contrast" = some taking ∧ taking wholeContrast = some (contrast wholeContrast) := by
  have timely : ¬EarlyThreshold "contrast" wholeContrast := fun early => absurd early.2.1 (by decide)
  obtain ⟨taking, found, used, _⟩ := accepted_arguments_used contrast_mem_builtin wholeContrast rfl
  exact ⟨rfl, timely, (used timely).1, taking, found, (used timely).2⟩

/-- A threshold behind one color is accepted at the index of another color, and has no effect there. -/
theorem shortContrast_out_of_place : ∃ function, ("contrast", function) ∈ Library.builtin.entries ∧
    function.signature.accepts shortContrast = true ∧ ¬function.signature.InPlace shortContrast ∧
      function.apply shortContrast = function.apply [green] := by
  refine ⟨_, contrast_mem_builtin, rfl, fun place => ?_, rfl⟩
  obtain ⟨type, at_, fits⟩ := place 1 (.number 90 "%") rfl
  cases at_
  cases fits

end Builtin

end LessCss
