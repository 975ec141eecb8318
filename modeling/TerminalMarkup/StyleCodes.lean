import TerminalMarkup.Color
import TerminalMarkup.Style

/-!
# Escape codes of a style

The opening code of a style sets each attribute that the style gives, and the
closing code unsets those attributes one by one.  A token that names no color
gives no code.
-/

namespace TerminalMarkup

def parameterText (parameters : List Nat) : Text :=
  [';'].intercalate (parameters.map Text.ofNat)

/-- The code that selects graphic attributes; there is none for no parameters. -/
def graphicCode (parameters : List Nat) : Text :=
  if parameters.isEmpty then
    []
  else
    "\x1b[".toList ++ parameterText parameters ++ "m".toList

/-- The code that starts a link; an empty target ends the link. -/
def linkCode (target : Text) : Text :=
  "\x1b]8;;".toList ++ target ++ "\x1b\\".toList

theorem graphicCode_of_ne_nil {parameters : List Nat}
    (hparameters : parameters ≠ []) :
    graphicCode parameters =
      '\x1b' :: '[' :: (parameterText parameters ++ ['m']) := by
  simp [graphicCode, hparameters]

theorem linkCode_eq (target : Text) :
    linkCode target =
      '\x1b' :: ']' :: ((['8', ';', ';'] ++ target) ++ ['\x1b', '\\']) :=
  rfl

structure Codes where
  opening : Text
  closing : Text
deriving DecidableEq, Repr

namespace Codes

def none : Codes :=
  ⟨[], []⟩

def isStyled (codes : Codes) : Bool :=
  !codes.opening.isEmpty || !codes.closing.isEmpty

/-- Put a text between the codes; nothing is written around an empty text. -/
def around (codes : Codes) (text : Text) : Text :=
  if text.isEmpty then [] else codes.opening ++ text ++ codes.closing

end Codes

inductive Ground
  | foreground
  | background
deriving DecidableEq, Repr

/-- The parameter of the first named color; the others follow it. -/
def Ground.firstParameter : Ground → Nat
  | .foreground => 30
  | .background => 40

/-- The parameter that gives a ground the default color of the terminal. -/
def Ground.unsetParameter (ground : Ground) : Nat :=
  ground.firstParameter + 9

/-- The parameters that select a color.  The bright colors have their own row
sixty above the normal ones. -/
def Color.parameters (ground : Ground) : Color → List Nat
  | .default => [ground.unsetParameter]
  | .named ⟨.normal, hue⟩ => [ground.firstParameter + hue.number]
  | .named ⟨.bright, hue⟩ => [ground.firstParameter + 60 + hue.number]
  | .indexed number => [ground.firstParameter + 8, 5, number.toNat]
  | .rgb ⟨red, green, blue⟩ =>
      [ground.firstParameter + 8, 2, red.toNat, green.toNat, blue.toNat]

/-! ## Codes of a style -/

namespace Style

/-- The color that a style gives to a ground, if its token names one. -/
def color? (style : Style) : Ground → Option Color
  | .foreground => style.foreground.bind Color.ofToken?
  | .background => style.background.bind Color.ofToken?

def groundSetParameters (style : Style) (depth : ColorDepth) (ground : Ground) :
    List Nat :=
  match style.color? ground with
  | some color => (color.reduce depth).parameters ground
  | none => []

def groundUnsetParameters (style : Style) (ground : Ground) : List Nat :=
  match style.color? ground with
  | some _ => [ground.unsetParameter]
  | none => []

def setParameters (style : Style) (depth : ColorDepth) : List Nat :=
  style.groundSetParameters depth .foreground ++
    style.groundSetParameters depth .background ++
    style.effects.toList.map Effect.setParameter

/-- The parameters that undo `setParameters`; one that undoes two effects is
written once. -/
def unsetParameters (style : Style) : List Nat :=
  style.groundUnsetParameters .foreground ++
    style.groundUnsetParameters .background ++
    (style.effects.toList.map Effect.unsetParameter).eraseDups

/-- The codes of a style on a terminal of the given depth.  A link is opened
last and closed first. -/
def codes (style : Style) (depth : ColorDepth) : Codes :=
  if depth.emitsCodes then
    let graphicOpening := graphicCode (style.setParameters depth)
    let graphicClosing := graphicCode style.unsetParameters
    match style.link with
    | some target =>
        ⟨graphicOpening ++ linkCode target, linkCode [] ++ graphicClosing⟩
    | none => ⟨graphicOpening, graphicClosing⟩
  else
    Codes.none

def apply (style : Style) (depth : ColorDepth) (text : Text) : Text :=
  (style.codes depth).around text

end Style

end TerminalMarkup
