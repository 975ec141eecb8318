import TerminalMarkup.Color
import TerminalMarkup.EscapeRemoval
import TerminalMarkup.Style

/-!
# A reference terminal

A terminal reads a text and shows it, ignoring all that it does not know.  It is
described on its own: the numbers below are those of its manual.  It shows just
the characters that remain when escape sequences are removed.
-/

namespace TerminalMarkup

/-- How a terminal shows a character.  There is no link if the target is
empty. -/
@[ext] structure Appearance where
  foreground : Color := .default
  background : Color := .default
  link : Text := []
  effects : EffectSet := .empty
deriving DecidableEq

def Effect.ofSetParameter? : Nat → Option Effect
  | 1 => some bold
  | 2 => some dim
  | 3 => some italic
  | 4 => some underscore
  | 5 => some blink
  | 7 => some reverse
  | 8 => some conceal
  | 9 => some strikethrough
  | _ => none

/-- The effects that a parameter clears; one parameter clears both bold and
dim. -/
def Effect.ofUnsetParameter : Nat → List Effect
  | 22 => [bold, dim]
  | 23 => [italic]
  | 24 => [underscore]
  | 25 => [blink]
  | 27 => [reverse]
  | 28 => [conceal]
  | 29 => [strikethrough]
  | _ => []

/-- The color that a single parameter selects, in the row of parameters that
begins at `first`: eight hues, the default color as the tenth, and the bright
hues sixty further on. -/
def Color.ofParameter? (first parameter : Nat) : Option Color :=
  if parameter = first + 9 then
    some .default
  else if first + 60 ≤ parameter then
    Hue.all[parameter - (first + 60)]?.map fun hue => .named ⟨.bright, hue⟩
  else if first ≤ parameter then
    Hue.all[parameter - first]?.map fun hue => .named ⟨.normal, hue⟩
  else
    none

namespace Appearance

def selectOne (appearance : Appearance) (parameter : Nat) : Appearance where
  foreground :=
    (Color.ofParameter? 30 parameter).getD appearance.foreground
  background :=
    (Color.ofParameter? 40 parameter).getD appearance.background
  link := appearance.link
  effects :=
    ⟨fun effect =>
      Effect.ofSetParameter? parameter = some effect ||
        (appearance.effects.contains effect &&
          !(Effect.ofUnsetParameter parameter).contains effect)⟩

/-- Follow a list of parameters.  The parameters 38 and 48 take an indexed color
or a mixture from those after them, for the foreground and the background. -/
def select (appearance : Appearance) : List Nat → Appearance
  | [] => appearance
  | 38 :: 5 :: number :: rest =>
      { appearance with
        foreground := .indexed (UInt8.ofNat number) }.select rest
  | 38 :: 2 :: red :: green :: blue :: rest =>
      { appearance with
        foreground :=
          .rgb ⟨UInt8.ofNat red, UInt8.ofNat green, UInt8.ofNat blue⟩ }.select
        rest
  | 48 :: 5 :: number :: rest =>
      { appearance with
        background := .indexed (UInt8.ofNat number) }.select rest
  | 48 :: 2 :: red :: green :: blue :: rest =>
      { appearance with
        background :=
          .rgb ⟨UInt8.ofNat red, UInt8.ofNat green, UInt8.ofNat blue⟩ }.select
        rest
  | parameter :: rest => (appearance.selectOne parameter).select rest

end Appearance

/-! ## Reading -/

/-- The numbers between semicolons, if there is nothing else in the text. -/
def parameters? (content : Text) : Option (List Nat) :=
  if content.all fun char => char.isDigit || char = ';' then
    some ((content.splitOn ';').map fun digits => Nat.ofDigitChars 10 digits 0)
  else
    none

/-- The target in the content of a command that starts or ends a link.  What
stands between the first two semicolons after the number says nothing about the
target. -/
def linkTarget? : Text → Option Text
  | '8' :: ';' :: rest => (Text.cut? ';' rest).map Prod.snd
  | _ => none

/-- What a terminal has read of a sequence. -/
inductive Reading
  | ground
  | escape
  | control (content : Text)
  | command (content : Text)
  | commandEscape (content : Text)
deriving DecidableEq

structure Terminal where
  reading : Reading := .ground
  appearance : Appearance := {}
deriving DecidableEq

structure ShownChar where
  char : Char
  appearance : Appearance
deriving DecidableEq

namespace Appearance

def control (appearance : Appearance) (content : Text) (last : Char) :
    Appearance :=
  if last = 'm' then
    match parameters? content with
    | some parameters => appearance.select parameters
    | none => appearance
  else
    appearance

def command (appearance : Appearance) (content : Text) : Appearance :=
  match linkTarget? content with
  | some target => { appearance with link := target }
  | none => appearance

end Appearance

namespace Terminal

def next (terminal : Terminal) (char : Char) : Terminal :=
  match terminal.reading with
  | .ground =>
      if char = '\x1b' then { terminal with reading := .escape } else terminal
  | .escape =>
      if char = '[' then { terminal with reading := .control [] }
      else if char = ']' then { terminal with reading := .command [] }
      else if char = '\x1b' then terminal
      else { terminal with reading := .ground }
  | .control content =>
      if endsControl char then
        ⟨.ground, terminal.appearance.control content char⟩
      else
        { terminal with reading := .control (content ++ [char]) }
  | .command content =>
      if char = '\x07' then
        ⟨.ground, terminal.appearance.command content⟩
      else if char = '\x1b' then
        { terminal with reading := .commandEscape content }
      else
        { terminal with reading := .command (content ++ [char]) }
  | .commandEscape content =>
      if char = '\\' then
        ⟨.ground, terminal.appearance.command content⟩
      else if char = '\x07' then
        ⟨.ground, terminal.appearance.command (content ++ ['\x1b'])⟩
      else if char = '\x1b' then
        { terminal with reading := .commandEscape (content ++ ['\x1b']) }
      else
        { terminal with reading := .command (content ++ ['\x1b', char]) }

def shows (terminal : Terminal) (char : Char) : Bool :=
  match terminal.reading with
  | .ground => char ≠ '\x1b'
  | .escape => char ≠ '[' && char ≠ ']' && char ≠ '\x1b'
  | .control _ | .command _ | .commandEscape _ => false

def display : Terminal → Text → List ShownChar
  | _, [] => []
  | terminal, char :: rest =>
      if terminal.shows char then
        ⟨char, terminal.appearance⟩ :: (terminal.next char).display rest
      else
        (terminal.next char).display rest

def after (terminal : Terminal) (text : Text) : Terminal :=
  text.foldl next terminal

@[simp] theorem after_nil (terminal : Terminal) :
    terminal.after [] = terminal := rfl

@[simp] theorem after_cons (terminal : Terminal) (char : Char) (rest : Text) :
    terminal.after (char :: rest) = (terminal.next char).after rest := rfl

theorem after_append (terminal : Terminal) (first second : Text) :
    terminal.after (first ++ second) =
      (terminal.after first).after second := by
  simp [after]

theorem display_append (terminal : Terminal) (first second : Text) :
    terminal.display (first ++ second) =
      terminal.display first ++ (terminal.after first).display second := by
  induction first generalizing terminal with
  | nil => rfl
  | cons char rest ih =>
      simp only [List.cons_append, display, ih]
      split
      · rfl
      · rfl

end Terminal

/-! ## Shown characters and the removal of escapes -/

def Reading.state : Reading → EscapeState
  | ground => .ground
  | escape => .escape
  | control _ => .control
  | command _ => .command
  | commandEscape _ => .commandEscape

namespace Terminal

theorem state_next (terminal : Terminal) (char : Char) :
    (terminal.next char).reading.state =
      terminal.reading.state.next char := by
  obtain ⟨reading, appearance⟩ := terminal
  cases reading with
  | ground =>
      simp only [next, Reading.state, EscapeState.next]
      by_cases hescape : char = '\x1b'
      · simp [hescape]
      · simp [hescape]
  | escape =>
      simp only [next, Reading.state, EscapeState.next]
      by_cases hcontrol : char = '['
      · simp [hcontrol]
      · by_cases hcommand : char = ']'
        · simp [hcommand]
        · by_cases hescape : char = '\x1b'
          · simp [hescape]
          · simp [hcontrol, hcommand, hescape]
  | control content =>
      simp only [next, Reading.state, EscapeState.next]
      by_cases hends : endsControl char = true
      · simp [hends]
      · simp [hends]
  | command content =>
      simp only [next, Reading.state, EscapeState.next]
      by_cases hbell : char = '\x07'
      · simp [hbell]
      · by_cases hescape : char = '\x1b'
        · simp [hescape]
        · simp [hbell, hescape]
  | commandEscape content =>
      simp only [next, Reading.state, EscapeState.next]
      by_cases hslash : char = '\\'
      · simp [hslash]
      · by_cases hbell : char = '\x07'
        · simp [hbell]
        · by_cases hescape : char = '\x1b'
          · simp [hescape]
          · simp [hslash, hbell, hescape]

theorem shows_eq (terminal : Terminal) (char : Char) :
    terminal.shows char = terminal.reading.state.prints char := by
  obtain ⟨reading, appearance⟩ := terminal
  cases reading <;> rfl

theorem map_char_display (terminal : Terminal) (text : Text) :
    (terminal.display text).map ShownChar.char =
      terminal.reading.state.printed text := by
  induction text generalizing terminal with
  | nil => rfl
  | cons char rest ih =>
      simp only [display, EscapeState.printed, shows_eq]
      rw [← state_next, ← ih (terminal.next char)]
      split
      · rfl
      · rfl

theorem map_char_display_initial (text : Text) :
    (({} : Terminal).display text).map ShownChar.char = removeEscapes text :=
  map_char_display {} text

end Terminal

end TerminalMarkup
