import LessCss.Number.Decimal

/-! Colors: red, green and blue from 0 to 255, alpha from 0 to 1, or hue, saturation
and lightness, each from 0 to 1; and colors made from other colors by shares of one.
A color that is written in a text keeps its spelling and is printed with it. -/

set_option autoImplicit false

namespace LessCss

open Binary64

structure Color where
  red : Float
  green : Float
  blue : Float
  alpha : Float
  spelling : Option String

namespace Color

def clamped (color : Color) : Color :=
  { color with
    red := clamp color.red 0 255
    green := clamp color.green 0 255
    blue := clamp color.blue 0 255
    alpha := clamp color.alpha 0 1 }

def rgba (red green blue alpha : Float) : Color :=
  clamped ⟨red, green, blue, alpha, none⟩

def byte (channel : Float) : Nat :=
  (clamp channel.round 0 255).toUInt8.toNat

/-! ### Reading -/

def isHexDigit (c : Char) : Bool :=
  c.isDigit || ('a' ≤ c && c ≤ 'f') || ('A' ≤ c && c ≤ 'F')

def hexDigitValue (c : Char) : Nat :=
  if c.isDigit then c.toNat - '0'.toNat else c.toLower.toNat - 'a'.toNat + 10

def hexPair (high low : Char) : Float :=
  Float.ofNat (16 * hexDigitValue high + hexDigitValue low)

def ofHexDigits? (digits : List Char) : Option Color :=
  if digits.all isHexDigit then
    match digits with
    | [r, g, b] => some (rgba (hexPair r r) (hexPair g g) (hexPair b b) 1)
    | [r₁, r₀, g₁, g₀, b₁, b₀] => some (rgba (hexPair r₁ r₀) (hexPair g₁ g₀) (hexPair b₁ b₀) 1)
    | [r₁, r₀, g₁, g₀, b₁, b₀, a₁, a₀] =>
      some (rgba (hexPair r₁ r₀) (hexPair g₁ g₀) (hexPair b₁ b₀) (hexPair a₁ a₀ / 255))
    | _ => none
  else none

def ofHash? (text : String) : Option Color :=
  match text.toList with
  | '#' :: digits => (ofHexDigits? digits).map fun color => { color with spelling := some text }
  | _ => none

def named : List (String × (Nat × Nat × Nat)) :=
  [("black", (0, 0, 0)), ("silver", (192, 192, 192)), ("gray", (128, 128, 128)),
    ("grey", (128, 128, 128)), ("white", (255, 255, 255)), ("maroon", (128, 0, 0)),
    ("red", (255, 0, 0)), ("purple", (128, 0, 128)), ("fuchsia", (255, 0, 255)),
    ("green", (0, 128, 0)), ("lime", (0, 255, 0)), ("olive", (128, 128, 0)),
    ("yellow", (255, 255, 0)), ("navy", (0, 0, 128)), ("blue", (0, 0, 255)),
    ("teal", (0, 128, 128)), ("aqua", (0, 255, 255)), ("orange", (255, 165, 0)),
    ("pink", (255, 192, 203)), ("brown", (165, 42, 42)), ("gold", (255, 215, 0))]

def ofName? (name : String) : Option Color :=
  if name.toLower = "transparent" then some { rgba 0 0 0 0 with spelling := some name }
  else
    (named.lookup name.toLower).map fun (r, g, b) =>
      { rgba (Float.ofNat r) (Float.ofNat g) (Float.ofNat b) 1 with spelling := some name }

/-! ### Writing -/

def hexByte (n : Nat) : List Char :=
  [Nat.digitChar (n / 16), Nat.digitChar (n % 16)]

def hexText (bytes : List Nat) : String :=
  String.ofList ('#' :: bytes.flatMap hexByte)

def hex (color : Color) : String :=
  let c := color.clamped
  hexText [byte c.red, byte c.green, byte c.blue]

def argb (color : Color) : String :=
  let c := color.clamped
  hexText [byte (c.alpha * 255), byte c.red, byte c.green, byte c.blue]

def rgbaText (color : Color) : String :=
  let c := color.clamped
  "rgba(" ++ toString (byte c.red) ++ ", " ++ toString (byte c.green) ++ ", " ++
    toString (byte c.blue) ++ ", " ++ Decimal.write c.alpha ++ ")"

/-- The spelling if there is one, else hexadecimal without transparency and `rgba()` with it. -/
def css (color : Color) : String :=
  match color.spelling with
  | some spelling => spelling
  | none => if 1 ≤ color.alpha then color.hex else color.rgbaText

/-- Equal whole channels, and alphas that differ by less than a millionth. -/
def same (a b : Color) : Bool :=
  let a := a.clamped
  let b := b.clamped
  byte a.red == byte b.red && byte a.green == byte b.green && byte a.blue == byte b.blue &&
    (a.alpha - b.alpha).abs < 1e-6

/-! ### Channels -/

def mapChannels (color : Color) (op : Float → Float) : Color :=
  rgba (op color.red) (op color.green) (op color.blue) color.alpha

def zipChannels (color other : Color) (op : Float → Float → Float) : Color :=
  rgba (op color.red other.red) (op color.green other.green) (op color.blue other.blue) color.alpha

def luma (color : Color) : Float :=
  (0.2126 * color.red + 0.7152 * color.green + 0.0722 * color.blue) / 255

end Color

structure Hsl where
  hue : Float
  saturation : Float
  lightness : Float

/-- The distance from one to the next double. Channels closer than this are equal. -/
def channelEpsilon : Float := Float.ofBits 0x3CB0000000000000

def Color.toHsl (color : Color) : Hsl :=
  let c := color.clamped
  let r := c.red / 255
  let g := c.green / 255
  let b := c.blue / 255
  let high := maximum (maximum r g) b
  let low := minimum (minimum r g) b
  let lightness := (high + low) / 2
  if (high - low).abs < channelEpsilon then ⟨0, 0, lightness⟩
  else
    let spread := high - low
    let saturation := if lightness > 0.5 then spread / (2 - high - low) else spread / (high + low)
    let sixths :=
      if (high - r).abs < channelEpsilon then (g - b) / spread + (if g < b then 6 else 0)
      else if (high - g).abs < channelEpsilon then (b - r) / spread + 2
      else (r - g) / spread + 4
    ⟨sixths / 6, saturation, lightness⟩

def Hsl.channel (p q t : Float) : Float :=
  let t := if t < 0 then t + 1 else t
  let t := if t > 1 then t - 1 else t
  if t < 1 / 6 then p + (q - p) * 6 * t
  else if t < 1 / 2 then q
  else if t < 2 / 3 then p + (q - p) * (2 / 3 - t) * 6
  else p

def Hsl.toColor (hsl : Hsl) (alpha : Float) : Color :=
  let s := hsl.saturation
  let l := hsl.lightness
  if s ≤ 0 then .rgba (l * 255) (l * 255) (l * 255) alpha
  else
    let q := if l < 0.5 then l * (1 + s) else l + s - l * s
    let p := 2 * l - q
    .rgba (channel p q (hsl.hue + 1 / 3) * 255) (channel p q hsl.hue * 255)
      (channel p q (hsl.hue - 1 / 3) * 255) alpha

def Color.hueDegrees (color : Color) : Float :=
  color.toHsl.hue * 360

def oneTurn (degrees : Float) : Float :=
  remainder (remainder degrees 360 + 360) 360

namespace Color

def withHsl (color : Color) (change : Hsl → Hsl) : Color :=
  (change color.toHsl).toColor color.alpha

def unitClamp (x : Float) : Float := clamp x 0 1

def lighten (color : Color) (amount : Float) : Color :=
  color.withHsl fun hsl => { hsl with lightness := unitClamp (hsl.lightness + amount) }

def darken (color : Color) (amount : Float) : Color :=
  color.withHsl fun hsl => { hsl with lightness := unitClamp (hsl.lightness - amount) }

def saturate (color : Color) (amount : Float) : Color :=
  color.withHsl fun hsl => { hsl with saturation := unitClamp (hsl.saturation + amount) }

def desaturate (color : Color) (amount : Float) : Color :=
  color.withHsl fun hsl => { hsl with saturation := unitClamp (hsl.saturation - amount) }

def greyscale (color : Color) : Color := color.desaturate 1

def spin (color : Color) (degrees : Float) : Color :=
  color.withHsl fun hsl => { hsl with hue := oneTurn (hsl.hue * 360 + degrees) / 360 }

def fade (color : Color) (alpha : Float) : Color :=
  { color with alpha := unitClamp alpha, spelling := none }

def fadeIn (color : Color) (amount : Float) : Color := color.fade (color.alpha + amount)

def fadeOut (color : Color) (amount : Float) : Color := color.fade (color.alpha - amount)

/-- A mixture in which `weight` is the share of the first color. The shares of the
channels also follow the difference of the alphas. -/
def mix (first second : Color) (weight : Float) : Color :=
  let p := unitClamp weight
  let w := p * 2 - 1
  let a := first.alpha - second.alpha
  let w₁ :=
    if (w * a - (-1)).abs < channelEpsilon then (w + 1) / 2 else ((w + a) / (1 + w * a) + 1) / 2
  let w₂ := 1 - w₁
  .rgba (first.red * w₁ + second.red * w₂) (first.green * w₁ + second.green * w₂)
    (first.blue * w₁ + second.blue * w₂) (first.alpha * p + second.alpha * (1 - p))

/-- The brighter of two colors on a dark one, the darker on a bright one. -/
def contrast (color dark light : Color) (threshold : Float) : Color :=
  let swapped := dark.luma > light.luma
  if color.luma < threshold then if swapped then dark else light
  else if swapped then light else dark

/-! ### Blending -/

def blendMultiply (a b : Float) : Float := a * b

def blendScreen (a b : Float) : Float := a + b - a * b

def blendOverlay (base top : Float) : Float :=
  if base ≤ 0.5 then blendMultiply (base * 2) top else blendScreen (base * 2 - 1) top

def blend (mode : Float → Float → Float) (below above : Color) : Color :=
  let ab := below.alpha
  let at_ := above.alpha
  let ar := at_ + ab * (1 - at_)
  let channel (b t : Float) : Float :=
    let cb := b / 255
    let cs := t / 255
    let cr := mode cb cs
    (if ar > 0 then (at_ * cs + ab * (cb - at_ * (cb + cs - cr))) / ar else cr) * 255
  .rgba (channel below.red above.red) (channel below.green above.green)
    (channel below.blue above.blue) ar

def overlay (first second : Color) : Color := blend blendOverlay first second

def multiply (first second : Color) : Color := blend blendMultiply first second

def screen (first second : Color) : Color := blend blendScreen first second

end Color

end LessCss
