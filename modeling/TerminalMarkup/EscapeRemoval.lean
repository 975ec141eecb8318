import TerminalMarkup.Text

/-!
# Removal of escape sequences

A control sequence ends with its first character from `@` to `~`, a command with
a bell or with an escape character before a backslash.  A sequence that does not
end runs to the end of the text.
-/

namespace TerminalMarkup

inductive EscapeState
  | ground
  | escape
  | control
  | command
  | commandEscape
deriving DecidableEq, Repr

def endsControl (char : Char) : Bool :=
  '@' ≤ char && char ≤ '~'

namespace EscapeState

def next : EscapeState → Char → EscapeState
  | ground, char => if char = '\x1b' then escape else ground
  | escape, char =>
      if char = '[' then control
      else if char = ']' then command
      else if char = '\x1b' then escape
      else ground
  | control, char => if endsControl char then ground else control
  | command, char =>
      if char = '\x07' then ground
      else if char = '\x1b' then commandEscape
      else command
  | commandEscape, char =>
      if char = '\\' ∨ char = '\x07' then ground
      else if char = '\x1b' then commandEscape
      else command

def prints : EscapeState → Char → Bool
  | ground, char => char ≠ '\x1b'
  | escape, char => char ≠ '[' && char ≠ ']' && char ≠ '\x1b'
  | control, _ => false
  | command, _ => false
  | commandEscape, _ => false

/-- The characters of a text that are printed when it is read from a state. -/
def printed : EscapeState → Text → Text
  | _, [] => []
  | state, char :: rest =>
      if state.prints char then
        char :: printed (state.next char) rest
      else
        printed (state.next char) rest

def after (state : EscapeState) (text : Text) : EscapeState :=
  text.foldl next state

theorem printed_append (state : EscapeState) (first second : Text) :
    state.printed (first ++ second) =
      state.printed first ++ (state.after first).printed second := by
  induction first generalizing state with
  | nil => rfl
  | cons char rest ih =>
      simp only [List.cons_append, printed]
      split
      · rw [ih]
        rfl
      · rw [ih]
        rfl

end EscapeState

theorem printed_ground_of_not_mem {text : Text} (htext : '\x1b' ∉ text) :
    EscapeState.ground.printed text = text ∧
      EscapeState.ground.after text = .ground := by
  induction text with
  | nil => exact ⟨rfl, rfl⟩
  | cons char rest ih =>
      simp only [List.mem_cons, not_or] at htext
      have hchar : char ≠ '\x1b' := fun heq => htext.1 heq.symm
      have hrest := ih htext.2
      have hnext : EscapeState.ground.next char = .ground := by
        simp [EscapeState.next, hchar]
      constructor
      · simp [EscapeState.printed, EscapeState.prints, hchar, hnext, hrest.1]
      · simpa [EscapeState.after, hnext] using hrest.2

def removeEscapes (text : Text) : Text :=
  EscapeState.ground.printed text

/-- The number of characters that a text prints. -/
def visibleWidth (text : Text) : Nat :=
  (removeEscapes text).length

end TerminalMarkup
