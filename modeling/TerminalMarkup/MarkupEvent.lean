import TerminalMarkup.Text

/-!
# Events of a marked-up text

Inside a tag a backslash takes the next character with it, and only so can
brackets stand there.  Outside a tag a backslash before `<` keeps that bracket
from starting a tag.  Everything that is no mark is text.
-/

namespace TerminalMarkup

inductive Event
  | text (content : Text)
  | opening (body : Text)
  | closing (body : Text)
deriving DecidableEq, Repr

namespace Event

/-- A tag with its brackets, and a text as it is. -/
def raw : Event → Text
  | text content => content
  | opening body => '<' :: body ++ ['>']
  | closing body => '<' :: '/' :: body ++ ['>']

end Event

/-! ## Marks -/

/-- The body of a tag and what follows the tag, read after its first
characters.  There is none if another tag begins or the text ends before `>`. -/
def tagBody? : Text → Option (Text × Text)
  | [] => none
  | '>' :: rest => some ([], rest)
  | '<' :: _ => none
  | '\\' :: char :: rest =>
      (tagBody? rest).map fun found => ('\\' :: char :: found.1, found.2)
  | char :: rest =>
      (tagBody? rest).map fun found => (char :: found.1, found.2)

/-- The mark at the beginning of a text, and what follows it. -/
def mark? : Text → Option (Event × Text)
  | '\\' :: '<' :: rest => some (.text ['<'], rest)
  | '<' :: '/' :: rest =>
      (tagBody? rest).map fun found => (.closing found.1, found.2)
  | '<' :: char :: rest =>
      if char.isAlpha then
        (tagBody? (char :: rest)).map fun found => (.opening found.1, found.2)
      else
        none
  | _ => none

/-- What stands before the leftmost mark, and the text from there on. -/
def cutAtMark : Text → Text × Text
  | [] => ([], [])
  | char :: rest =>
      if (mark? (char :: rest)).isSome then
        ([], char :: rest)
      else
        let (before, after) := cutAtMark rest
        (char :: before, after)

theorem eq_append_of_tagBody? {text body rest : Text}
    (hbody : tagBody? text = some (body, rest)) :
    text = body ++ '>' :: rest := by
  induction text using tagBody?.induct generalizing body rest with
  | case1 => simp [tagBody?] at hbody
  | case2 tail =>
      simp only [tagBody?, Option.some.injEq, Prod.mk.injEq] at hbody
      rw [← hbody.1, ← hbody.2]
      rfl
  | case3 => simp [tagBody?] at hbody
  | case4 char tail ih =>
      simp only [tagBody?, Option.map_eq_some_iff, Prod.mk.injEq] at hbody
      obtain ⟨found, hfound, hfirst, hsecond⟩ := hbody
      rw [ih hfound, ← hfirst, ← hsecond]
      rfl
  | case5 char tail hclose hopen hescape ih =>
      rw [tagBody?.eq_5 char tail hclose hopen hescape] at hbody
      simp only [Option.map_eq_some_iff, Prod.mk.injEq] at hbody
      obtain ⟨found, hfound, hfirst, hsecond⟩ := hbody
      rw [ih hfound, ← hfirst, ← hsecond]
      rfl

/-- A mark is its event as written, or a bracket that a backslash keeps. -/
theorem eq_append_of_mark? {text rest : Text} {event : Event}
    (hmark : mark? text = some (event, rest)) :
    text = event.raw ++ rest ∨
      (event = .text ['<'] ∧ text = '\\' :: '<' :: rest) := by
  unfold mark? at hmark
  split at hmark
  · simp only [Option.some.injEq, Prod.mk.injEq] at hmark
    obtain ⟨hevent, hrest⟩ := hmark
    exact .inr ⟨hevent.symm, by rw [hrest]⟩
  · simp only [Option.map_eq_some_iff, Prod.mk.injEq] at hmark
    obtain ⟨found, hfound, hevent, hrest⟩ := hmark
    rw [eq_append_of_tagBody? hfound, ← hevent, ← hrest]
    simp [Event.raw]
  · split at hmark
    · simp only [Option.map_eq_some_iff, Prod.mk.injEq] at hmark
      obtain ⟨found, hfound, hevent, hrest⟩ := hmark
      rw [eq_append_of_tagBody? hfound, ← hevent, ← hrest]
      simp [Event.raw]
    · simp at hmark
  · simp at hmark

theorem cutAtMark_append (text : Text) :
    (cutAtMark text).1 ++ (cutAtMark text).2 = text := by
  induction text with
  | nil => rfl
  | cons char rest ih =>
      simp only [cutAtMark]
      split
      · rfl
      · exact congrArg (char :: ·) ih

/-! ## Events -/

/-- The first event of a text and what follows it: the mark at the beginning,
or all text before the leftmost mark. -/
def nextEvent? (text : Text) : Option (Event × Text) :=
  match mark? text with
  | some found => some found
  | none =>
      match cutAtMark text with
      | ([], _) => none
      | (before, after) => some (.text before, after)

theorem raw_ne_nil_of_mark? {text rest : Text} {event : Event}
    (hmark : mark? text = some (event, rest)) :
    event.raw ≠ [] := by
  unfold mark? at hmark
  split at hmark
  · simp only [Option.some.injEq, Prod.mk.injEq] at hmark
    simp [← hmark.1, Event.raw]
  · simp only [Option.map_eq_some_iff, Prod.mk.injEq] at hmark
    obtain ⟨found, _, hevent, _⟩ := hmark
    simp [← hevent, Event.raw]
  · split at hmark
    · simp only [Option.map_eq_some_iff, Prod.mk.injEq] at hmark
      obtain ⟨found, _, hevent, _⟩ := hmark
      simp [← hevent, Event.raw]
    · simp at hmark
  · simp at hmark

/-- Reading an event leaves a shorter text. -/
theorem length_lt_of_nextEvent? {text rest : Text} {event : Event}
    (hnext : nextEvent? text = some (event, rest)) :
    rest.length < text.length := by
  unfold nextEvent? at hnext
  split at hnext
  next found hmark =>
    simp only [Option.some.injEq] at hnext
    subst hnext
    have hraw : 0 < event.raw.length :=
      List.length_pos_iff.mpr (raw_ne_nil_of_mark? hmark)
    rcases eq_append_of_mark? hmark with htext | ⟨_, htext⟩
    · rw [htext, List.length_append]
      omega
    · rw [htext]
      simp only [List.length_cons]
      omega
  next hmark =>
    have happend := cutAtMark_append text
    split at hnext
    · simp at hnext
    next before after hbefore hcut =>
      simp only [Option.some.injEq, Prod.mk.injEq] at hnext
      rw [hcut] at happend
      have hlength : 0 < before.length :=
        List.length_pos_iff.mpr hbefore
      rw [← hnext.2, ← happend]
      simp only [List.length_append]
      omega

/-- All events of a text in order. -/
def events (text : Text) : List Event :=
  match _hnext : nextEvent? text with
  | none => []
  | some (event, rest) => event :: events rest
termination_by text.length
decreasing_by exact length_lt_of_nextEvent? _hnext

/-! ## Escapes -/

/-- The character that stands for a final backslash. -/
def placeholder : Char := '\x00'

/-- Exchange every backslash of the final run for a placeholder: those are the
backslashes after which nothing but backslashes follows. -/
def guardFinalBackslashes : Text → Text
  | [] => []
  | char :: rest =>
      (if (char :: rest).all (· = '\\') then placeholder else char) ::
        guardFinalBackslashes rest

def restoreBackslashes (text : Text) : Text :=
  text.map fun char => if char = placeholder then '\\' else char

/-- Put a backslash before each opening bracket that has none. -/
def escapeBrackets : Text → Text
  | [] => []
  | '\\' :: '<' :: rest => '\\' :: '<' :: escapeBrackets rest
  | '<' :: rest => '\\' :: '<' :: escapeBrackets rest
  | char :: rest => char :: escapeBrackets rest

/-- The marked-up text that stands for a text without any tags. -/
def escapeMarkup (text : Text) : Text :=
  guardFinalBackslashes (escapeBrackets text)

/-- The body of a tag without its escaping backslashes.  A backslash with no
character after it is kept. -/
def unescapeBody : Text → Text
  | [] => []
  | ['\\'] => ['\\']
  | '\\' :: char :: rest => char :: unescapeBody rest
  | char :: rest => char :: unescapeBody rest

end TerminalMarkup
