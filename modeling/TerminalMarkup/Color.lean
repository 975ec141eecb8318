import TerminalMarkup.Text

/-!
# Terminal colors

A color is the default of the terminal, one of sixteen named colors, an entry of
the indexed palette, or a mixture.  It is read from a token, and reduced to what
a terminal of a given depth can show.
-/

namespace TerminalMarkup

inductive Hue
  | black
  | red
  | green
  | yellow
  | blue
  | magenta
  | cyan
  | white
deriving DecidableEq, Repr

namespace Hue

/-- The hues in the order of their palette numbers. -/
def all : List Hue :=
  [black, red, green, yellow, blue, magenta, cyan, white]

def number : Hue → Nat
  | black => 0
  | red => 1
  | green => 2
  | yellow => 3
  | blue => 4
  | magenta => 5
  | cyan => 6
  | white => 7

end Hue

inductive Intensity
  | normal
  | bright
deriving DecidableEq, Repr

/-- A mixture of the three channels, each from 0 to 255. -/
structure Rgb where
  red : UInt8
  green : UInt8
  blue : UInt8
deriving DecidableEq, Repr

/-- One of the sixteen colors that have a name. -/
structure NamedColor where
  intensity : Intensity
  hue : Hue
deriving DecidableEq, Repr

namespace NamedColor

/-- The named colors in the order of their palette numbers. -/
def all : List NamedColor :=
  Hue.all.map (⟨.normal, ·⟩) ++ Hue.all.map (⟨.bright, ·⟩)

def number : NamedColor → Nat
  | ⟨.normal, hue⟩ => hue.number
  | ⟨.bright, hue⟩ => 8 + hue.number

/-- The mixture that terminals show for a named color unless told otherwise. -/
def rgb : NamedColor → Rgb
  | ⟨.normal, .black⟩ => ⟨0, 0, 0⟩
  | ⟨.normal, .red⟩ => ⟨205, 0, 0⟩
  | ⟨.normal, .green⟩ => ⟨0, 205, 0⟩
  | ⟨.normal, .yellow⟩ => ⟨205, 205, 0⟩
  | ⟨.normal, .blue⟩ => ⟨0, 0, 238⟩
  | ⟨.normal, .magenta⟩ => ⟨205, 0, 205⟩
  | ⟨.normal, .cyan⟩ => ⟨0, 205, 205⟩
  | ⟨.normal, .white⟩ => ⟨229, 229, 229⟩
  | ⟨.bright, .black⟩ => ⟨127, 127, 127⟩
  | ⟨.bright, .red⟩ => ⟨255, 0, 0⟩
  | ⟨.bright, .green⟩ => ⟨0, 255, 0⟩
  | ⟨.bright, .yellow⟩ => ⟨255, 255, 0⟩
  | ⟨.bright, .blue⟩ => ⟨92, 92, 255⟩
  | ⟨.bright, .magenta⟩ => ⟨255, 0, 255⟩
  | ⟨.bright, .cyan⟩ => ⟨0, 255, 255⟩
  | ⟨.bright, .white⟩ => ⟨255, 255, 255⟩

theorem all_ne_nil : all ≠ [] := by decide

end NamedColor

inductive Color
  | default
  | named (color : NamedColor)
  | indexed (number : UInt8)
  | rgb (value : Rgb)
deriving DecidableEq, Repr

namespace Color

/-- The place of a color in the order of colors: the default first, then the
named colors, the indexed ones, and the mixtures by red, green and blue. -/
def rank : Color → Nat
  | .default => 0
  | .named color => 1 + color.number
  | .indexed number => 17 + number.toNat
  | .rgb ⟨red, green, blue⟩ =>
      273 + (red.toNat * 256 + green.toNat) * 256 + blue.toNat

def sort (colors : List Color) : List Color :=
  colors.mergeSort fun first second => first.rank ≤ second.rank

end Color

/-! ## Color depths -/

inductive ColorDepth
  | plain
  | basic
  | indexed
  | trueColor
deriving DecidableEq, Repr

def ColorDepth.emitsCodes : ColorDepth → Bool
  | .plain => false
  | .basic | .indexed | .trueColor => true

/-- The mixture of a palette entry: the sixteen named colors, then the cube with
steps of 51 from 0 to 255, then the grays from 8 to 238 in steps of ten. -/
def indexedRgb (number : UInt8) : Rgb :=
  if low : number.toNat < NamedColor.all.length then
    NamedColor.all[number.toNat].rgb
  else if number.toNat < 232 then
    let place := number.toNat - 16
    ⟨UInt8.ofNat (place / 36 * 51),
      UInt8.ofNat (place % 36 / 6 * 51),
      UInt8.ofNat (place % 6 * 51)⟩
  else
    let gray := UInt8.ofNat ((number.toNat - 232) * 10 + 8)
    ⟨gray, gray, gray⟩

/-- The mixture of a color; the default color of a terminal has none. -/
def Color.rgb? : Color → Option Rgb
  | .default => none
  | .named color => some color.rgb
  | .indexed number => some (indexedRgb number)
  | .rgb value => some value

def Rgb.squaredDistance (first second : Rgb) : Int :=
  let red : Int := (first.red.toNat : Int) - second.red.toNat
  let green : Int := (first.green.toNat : Int) - second.green.toNat
  let blue : Int := (first.blue.toNat : Int) - second.blue.toNat
  red * red + green * green + blue * blue

/-- The named color nearest to a mixture; of several the one with the least
palette number. -/
def NamedColor.nearest (target : Rgb) : NamedColor :=
  NamedColor.all.minOn (fun color => target.squaredDistance color.rgb)
    NamedColor.all_ne_nil

/-- The level of the color cube, from 0 to 5, that is nearest to a channel. -/
def cubeLevel (channel : UInt8) : Nat :=
  (channel.toNat * 5 + 127) / 255

/-- The entry of the color cube that is nearest to a mixture. -/
def Rgb.cubeNumber (value : Rgb) : Nat :=
  16 + 36 * cubeLevel value.red + 6 * cubeLevel value.green +
    cubeLevel value.blue

namespace Color

/-- Replace a color by its mixture. -/
def toTrueColor (color : Color) : Color :=
  match color.rgb? with
  | some value => .rgb value
  | none => color

/-- Replace a mixture by the nearest entry of the color cube. -/
def toIndexed : Color → Color
  | .rgb value => .indexed (UInt8.ofNat value.cubeNumber)
  | color => color

/-- Replace an indexed color or a mixture by a named color. -/
def toBasic : Color → Color
  | .indexed number =>
      if low : number.toNat < NamedColor.all.length then
        .named NamedColor.all[number.toNat]
      else
        .named (NamedColor.nearest (indexedRgb number))
  | .rgb value => .named (NamedColor.nearest value)
  | color => color

/-- Reduce a color to what a terminal of the given depth can show. -/
def reduce (depth : ColorDepth) (color : Color) : Color :=
  match depth with
  | .plain | .trueColor => color
  | .indexed => color.toIndexed
  | .basic => color.toBasic

end Color

/-! ## Color tokens -/

/-- The value of a hexadecimal digit in lower case: its place among the digits. -/
def hexDigit? (char : Char) : Option Nat :=
  "0123456789abcdef".toList.idxOf? char

/-- The mixture written with two digits per channel, or with one digit that
stands for itself twice. -/
def Rgb.ofHex? (digits : Text) : Option Rgb :=
  match digits.mapM hexDigit? with
  | some [red, green, blue] =>
      some ⟨UInt8.ofNat (17 * red), UInt8.ofNat (17 * green),
        UInt8.ofNat (17 * blue)⟩
  | some [red, red', green, green', blue, blue'] =>
      some ⟨UInt8.ofNat (16 * red + red'), UInt8.ofNat (16 * green + green'),
        UInt8.ofNat (16 * blue + blue')⟩
  | _ => none

/-- The palette number written in decimal digits, after at most one plus sign. -/
def paletteNumber? (token : Text) : Option UInt8 :=
  let digits :=
    match token with
    | '+' :: rest => rest
    | _ => token
  if digits ≠ [] ∧ digits.all Char.isDigit then
    let value := Nat.ofDigitChars 10 digits 0
    if value ≤ 255 then some (UInt8.ofNat value) else none
  else
    none

def Hue.name : Hue → Text
  | black => "black".toList
  | red => "red".toList
  | green => "green".toList
  | yellow => "yellow".toList
  | blue => "blue".toList
  | magenta => "magenta".toList
  | cyan => "cyan".toList
  | white => "white".toList

/-- The words for the hues; there are two for magenta. -/
def Hue.words : List (Text × Hue) :=
  ("purple".toList, magenta) :: all.map fun hue => (hue.name, hue)

def Hue.ofWord? (word : Text) : Option Hue :=
  words.lookup word

def brightMark : Text :=
  "bright-".toList

def NamedColor.name : NamedColor → Text
  | ⟨.normal, hue⟩ => hue.name
  | ⟨.bright, hue⟩ => brightMark ++ hue.name

/-- The color of a single word: the default, a hue in normal intensity, or gray,
which is the bright black. -/
def Color.ofWord? (word : Text) : Option Color :=
  if word = "default".toList then
    some .default
  else if word = "gray".toList ∨ word = "grey".toList then
    some (.named ⟨.bright, .black⟩)
  else
    (Hue.ofWord? word).map fun hue => .named ⟨.normal, hue⟩

/-- The color of a token without blanks around it and in lower case. -/
def Color.ofPlainToken? : Text → Option Color
  | '#' :: digits => (Rgb.ofHex? digits).map .rgb
  | token =>
      match paletteNumber? token with
      | some number => some (.indexed number)
      | none =>
          if brightMark.isPrefixOf token then
            (Hue.ofWord? (token.drop brightMark.length)).map
              fun hue => .named ⟨.bright, hue⟩
          else
            Color.ofWord? token

def Color.ofToken? (token : Text) : Option Color :=
  Color.ofPlainToken? token.trim.lowerCase

end TerminalMarkup
