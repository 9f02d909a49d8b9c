import LessCss.Function.Signature

/-! The built-in functions: colors, numbers, tests of kinds, and strings. -/

set_option autoImplicit false

namespace LessCss.Builtin

/-! ### Arguments by index -/

def colorOr (arguments : List Value) (i : Nat) (other : Color) : Color :=
  match arguments[i]? with
  | some (.color color) => color
  | _ => other

def colorAt (arguments : List Value) (i : Nat) : Color :=
  colorOr arguments i ⟨0, 0, 0, 0, none⟩

def numberAt (arguments : List Value) (i : Nat) : Float :=
  match arguments[i]? with
  | some (.quantity q) => q.value
  | _ => 0

def ratioAt (arguments : List Value) (i : Nat) : Float :=
  match arguments[i]? with
  | some (.quantity q) => q.ratio
  | _ => 0

def stringAt (arguments : List Value) (i : Nat) : String :=
  match arguments[i]? with
  | some value => value.plain
  | none => ""

/-- A channel from 0 to 255; a percentage is a share of the whole range. -/
def channelAt (arguments : List Value) (i : Nat) : Float :=
  match arguments[i]? with
  | some (.quantity q) => if q.isPercentage then q.ratio * 255 else q.value
  | _ => 0

def alphaAt (arguments : List Value) (i : Nat) : Float :=
  match arguments[i]? with
  | some (.quantity q) => if q.isPercentage then q.ratio else q.value
  | _ => 1

def hueAt (arguments : List Value) (i : Nat) : Float :=
  oneTurn (numberAt arguments i) / 360

def unitAt (arguments : List Value) (i : Nat) : String :=
  match arguments[i]? with
  | some (.unit name) => name
  | some (.string text _) => text
  | _ => ""

/-! ### Makers of functions -/

def ofColor (make : Color → Color) (arguments : List Value) : Value :=
  .color (make (colorAt arguments 0))

def byRatio (adjust : Color → Float → Color) (arguments : List Value) : Value :=
  .color (adjust (colorAt arguments 0) (ratioAt arguments 1))

def ofColors (blend : Color → Color → Color) (arguments : List Value) : Value :=
  .color (blend (colorAt arguments 0) (colorAt arguments 1))

def colorNumber (measure : Color → Float) (unit : String) (arguments : List Value) : Value :=
  .number (measure (colorAt arguments 0)) unit

def onNumber (change : Float → Float) (arguments : List Value) : Value :=
  match arguments.head? with
  | some (.quantity q) => .number (change q.value) q.unit
  | _ => .number 0 ""

def test (holds : Value → Bool) (arguments : List Value) : Value :=
  .boolean (arguments.head?.any holds)

def hasUnit (unit : String) : Value → Bool
  | .quantity q => q.unit.toLower == unit.toLower
  | _ => false

/-! ### Single functions -/

def mix (arguments : List Value) : Value :=
  let weight := if arguments.length > 2 then ratioAt arguments 2 else 0.5
  .color (Color.mix (colorAt arguments 0) (colorAt arguments 1) weight)

def contrast (arguments : List Value) : Value :=
  let dark := colorOr arguments 1 (.rgba 0 0 0 1)
  let light := colorOr arguments 2 (.rgba 255 255 255 1)
  let threshold := if arguments.length > 3 then ratioAt arguments 3 else 0.43
  .color (Color.contrast (colorAt arguments 0) dark light threshold)

def mostPlaces : Nat := 2147483647

/-- Rounds half away from zero, to whole numbers or to a number of places. -/
def round (arguments : List Value) : Value :=
  let places := if arguments.length > 1 then Binary64.maximum (numberAt arguments 1) 0 else 0
  let factor := Binary64.power 10 (min places.toUInt32.toNat mostPlaces)
  onNumber (fun x => (x * factor).round / factor) arguments

def isQuotedString : Value → Bool
  | .string _ (some _) => true
  | _ => false

def isKeyword : Value → Bool
  | .string _ none => true
  | _ => false

def isPlaceholder (c : Char) : Bool :=
  ['d', 'a', 's', 'D', 'A', 'S'].contains c

/-- What a placeholder shows of a value: `s` without quotes, `d` and `a` as
written, in upper case with percent escapes. -/
def placeholderText (c : Char) (value : Value) : String :=
  let text := if c.toLower == 's' then value.plain else value.css
  if c.isUpper then Text.percentEscape text else text

/-- Fills the placeholders with the values in turn. A placeholder without a
value stays, and a double percent sign stands for a single one. -/
def fill : List Char → List Value → List Char
  | [], _ => []
  | '%' :: c :: rest, values =>
    if isPlaceholder c then
      match values with
      | value :: values => (placeholderText c value).toList ++ fill rest values
      | [] => '%' :: c :: fill rest []
    else if c == '%' then '%' :: fill rest values
    else '%' :: fill (c :: rest) values
  | c :: rest, values => c :: fill rest values

def formatString (arguments : List Value) : Value :=
  match arguments with
  | .string text quote :: values => .string (String.ofList (fill text.toList values)) quote
  | _ => .keyword ""

/-! ### The library -/

def colorFunctions : List (String × String × (List Value → Value)) :=
  [("rgb", "NNN", fun xs => .color (.rgba (channelAt xs 0) (channelAt xs 1) (channelAt xs 2) 1)),
    ("rgba", "NNNN", fun xs =>
      .color (.rgba (channelAt xs 0) (channelAt xs 1) (channelAt xs 2) (alphaAt xs 3))),
    ("hsl", "NPP", fun xs => .color (Hsl.toColor ⟨hueAt xs 0, ratioAt xs 1, ratioAt xs 2⟩ 1)),
    ("hsla", "NPPN", fun xs =>
      .color (Hsl.toColor ⟨hueAt xs 0, ratioAt xs 1, ratioAt xs 2⟩ (alphaAt xs 3))),
    ("lighten", "CP", byRatio Color.lighten),
    ("darken", "CP", byRatio Color.darken),
    ("saturate", "CP", byRatio Color.saturate),
    ("desaturate", "CP", byRatio Color.desaturate),
    ("fadein", "CP", byRatio Color.fadeIn),
    ("fadeout", "CP", byRatio Color.fadeOut),
    ("fade", "CP", byRatio Color.fade),
    ("spin", "CN", fun xs => .color (Color.spin (colorAt xs 0) (numberAt xs 1))),
    ("mix", "CCP?", mix),
    ("greyscale", "C", ofColor Color.greyscale),
    ("contrast", "CC?C?P?", contrast),
    ("hue", "C", colorNumber (fun c => c.hueDegrees.round) ""),
    ("saturation", "C", colorNumber (fun c => (c.toHsl.saturation * 100).round) "%"),
    ("lightness", "C", colorNumber (fun c => (c.toHsl.lightness * 100).round) "%"),
    ("red", "C", colorNumber (fun c => c.red.round) ""),
    ("green", "C", colorNumber (fun c => c.green.round) ""),
    ("blue", "C", colorNumber (fun c => c.blue.round) ""),
    ("alpha", "C", colorNumber Color.alpha ""),
    ("argb", "C", fun xs => .keyword (colorAt xs 0).argb),
    ("overlay", "CC", ofColors Color.overlay),
    ("multiply", "CC", ofColors Color.multiply),
    ("screen", "CC", ofColors Color.screen)]

def numberFunctions : List (String × String × (List Value → Value)) :=
  [("unit", "NU?", fun xs => .number (numberAt xs 0) (unitAt xs 1)),
    ("ceil", "N", onNumber Float.ceil),
    ("floor", "N", onNumber Float.floor),
    ("sqrt", "N", onNumber Float.sqrt),
    ("abs", "N", onNumber Float.abs),
    ("round", "NN?", round),
    ("percentage", "N", fun xs => .number (numberAt xs 0 * 100) "%")]

def testFunctions : List (String × String × (List Value → Value)) :=
  [("isnumber", ".", test ArgumentType.number.fits),
    ("iscolor", ".", test ArgumentType.color.fits),
    ("isstring", ".", test isQuotedString),
    ("iskeyword", ".", test isKeyword),
    ("isurl", ".", test ArgumentType.url.fits),
    ("ispixel", ".", test (hasUnit "px")),
    ("isem", ".", test (hasUnit "em")),
    ("ispercentage", ".", test (hasUnit "%")),
    ("isunit", ".U", fun xs => test (hasUnit (unitAt xs 1)) xs)]

def stringFunctions : List (String × String × (List Value → Value)) :=
  [("e", "S", fun xs => .keyword (stringAt xs 0)),
    ("escape", "S", fun xs => .keyword (Text.percentEscape (stringAt xs 0))),
    ("%", "S.*", formatString)]

def functions : List (String × String × (List Value → Value)) :=
  colorFunctions ++ numberFunctions ++ testFunctions ++ stringFunctions

end LessCss.Builtin

namespace LessCss

def Library.builtin : Library :=
  ⟨Builtin.functions.map fun (name, signature, apply) => (name, ⟨.read signature, apply⟩)⟩

end LessCss
