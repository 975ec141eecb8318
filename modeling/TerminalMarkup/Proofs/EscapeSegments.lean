import Mathlib.Data.List.Infix
import TerminalMarkup.EscapeRemoval

/-!
# The segments of a text with escape sequences

Escape sequences are described here without a state.  Every text falls into
segments in exactly one way, and a complete segment stays the same with more
text behind it.
-/

namespace TerminalMarkup

/-- The numbers of the characters that end a control sequence. -/
def IsFinal (char : Char) : Prop :=
  0x40 ≤ char.toNat ∧ char.toNat ≤ 0x7e

/-- The two ways to end a command. -/
def commandEndings : List Text :=
  [['\x07'], ['\x1b', '\\']]

/-- Neither ending of a command stands in the text. -/
def HasNoEnding (text : Text) : Prop :=
  '\x07' ∉ text ∧ ¬ ['\x1b', '\\'] <:+: text

inductive Segment
  | shown (char : Char)
  | control (body : Text) (last : Char)
  | command (body ending : Text)
  | openControl (body : Text)
  | openCommand (body : Text)
  | lone
deriving DecidableEq, Repr

namespace Segment

def written : Segment → Text
  | shown char => [char]
  | control body last => '\x1b' :: '[' :: (body ++ [last])
  | command body ending => '\x1b' :: ']' :: (body ++ ending)
  | openControl body => '\x1b' :: '[' :: body
  | openCommand body => '\x1b' :: ']' :: body
  | lone => ['\x1b']

/-- The character that the segment shows, if any. -/
def char? : Segment → Option Char
  | shown char => some char
  | _ => none

/-- More text behind the segment would not belong to it. -/
def IsComplete : Segment → Prop
  | shown _ | control _ _ | command _ _ => True
  | openControl _ | openCommand _ | lone => False

end Segment

/-- A text begins with a segment and goes on with another text. -/
inductive BeginsWithSegment : Text → Segment → Text → Prop
  | shown {char : Char} (hchar : char ≠ '\x1b') (rest : Text) :
      BeginsWithSegment (char :: rest) (.shown char) rest
  | control {body : Text} {last : Char} (hbody : ∀ char ∈ body, ¬ IsFinal char)
      (hlast : IsFinal last) (rest : Text) :
      BeginsWithSegment ('\x1b' :: '[' :: (body ++ last :: rest))
        (.control body last) rest
  | command {body ending : Text} (hbody : HasNoEnding body)
      (hending : ending ∈ commandEndings) (rest : Text) :
      BeginsWithSegment ('\x1b' :: ']' :: (body ++ (ending ++ rest)))
        (.command body ending) rest
  | openControl {body : Text} (hbody : ∀ char ∈ body, ¬ IsFinal char) :
      BeginsWithSegment ('\x1b' :: '[' :: body) (.openControl body) []
  | openCommand {body : Text} (hbody : HasNoEnding body) :
      BeginsWithSegment ('\x1b' :: ']' :: body) (.openCommand body) []
  | lone {rest : Text} (hcontrol : rest.head? ≠ some '[')
      (hcommand : rest.head? ≠ some ']') :
      BeginsWithSegment ('\x1b' :: rest) .lone rest

/-- The segments of a text from the left. -/
inductive Segmented : Text → List Segment → Prop
  | nil : Segmented [] []
  | cons {text rest : Text} {segment : Segment} {segments : List Segment}
      (hfirst : BeginsWithSegment text segment rest)
      (hrest : Segmented rest segments) : Segmented text (segment :: segments)

/-! ## Where sequences end -/

theorem endsControl_eq_true_iff (char : Char) :
    endsControl char = true ↔ IsFinal char := by
  simp only [endsControl, IsFinal, Bool.and_eq_true, decide_eq_true_eq]
  rfl

theorem mem_commandEndings_iff (ending : Text) :
    ending ∈ commandEndings ↔ ending = ['\x07'] ∨ ending = ['\x1b', '\\'] := by
  simp [commandEndings]

theorem exists_first_final (text : Text) :
    (∀ char ∈ text, ¬ IsFinal char) ∨
      ∃ body last rest,
        text = body ++ last :: rest ∧ (∀ char ∈ body, ¬ IsFinal char) ∧
          IsFinal last := by
  induction text with
  | nil => simp
  | cons char rest ih =>
      by_cases hchar : IsFinal char
      · exact .inr ⟨[], char, rest, rfl, by simp, hchar⟩
      · rcases ih with hrest | ⟨body, last, others, rfl, hbody, hlast⟩
        · exact .inl (List.forall_mem_cons.mpr ⟨hchar, hrest⟩)
        · exact
            .inr ⟨char :: body, last, others, rfl,
              List.forall_mem_cons.mpr ⟨hchar, hbody⟩, hlast⟩

theorem first_final_unique {body other rest others : Text} {last next : Char}
    (hbody : ∀ char ∈ body, ¬ IsFinal char) (hlast : IsFinal last)
    (hother : ∀ char ∈ other, ¬ IsFinal char) (hnext : IsFinal next)
    (htext : body ++ last :: rest = other ++ next :: others) :
    body = other ∧ last = next ∧ rest = others := by
  have htake {front back : Text} {char : Char}
      (hfront : ∀ char ∈ front, ¬ IsFinal char) (hchar : IsFinal char) :
      (front ++ char :: back).takeWhile (fun char => !endsControl char) =
        front := by
    have hpass : ∀ char ∈ front, (!endsControl char) = true := by
      intro char hmem
      rw [Bool.not_eq_true', ← Bool.not_eq_true, endsControl_eq_true_iff]
      exact hfront char hmem
    rw [List.takeWhile_append_of_pos hpass, List.takeWhile_cons_of_neg,
      List.append_nil]
    rw [(endsControl_eq_true_iff char).mpr hchar]
    decide
  have hsame : body = other := by
    rw [← htake hbody hlast, htext, htake hother hnext]
  subst other
  exact ⟨rfl, List.cons.inj (List.append_cancel_left htext)⟩

theorem hasNoEnding_cons_iff (char : Char) (text : Text) :
    HasNoEnding (char :: text) ↔
      char ≠ '\x07' ∧ ¬ (char = '\x1b' ∧ text.head? = some '\\') ∧
        HasNoEnding text := by
  have hpair :
      ['\x1b', '\\'] <+: char :: text ↔
        char = '\x1b' ∧ text.head? = some '\\' := by
    cases text <;> simp [List.cons_prefix_cons, eq_comm]
  rw [HasNoEnding, HasNoEnding, List.mem_cons, List.infix_cons_iff, hpair]
  grind

theorem exists_first_ending (text : Text) :
    HasNoEnding text ∨
      ∃ body ending rest,
        text = body ++ (ending ++ rest) ∧ HasNoEnding body ∧
          ending ∈ commandEndings := by
  have hnil : HasNoEnding [] := by simp [HasNoEnding]
  induction text with
  | nil => exact .inl hnil
  | cons char rest ih =>
      by_cases hbell : char = '\x07'
      · exact .inr ⟨[], ['\x07'], rest, by simp [hbell], hnil, by decide⟩
      by_cases hescape : char = '\x1b' ∧ rest.head? = some '\\'
      · obtain ⟨others, rfl⟩ := List.head?_eq_some_iff.mp hescape.2
        exact
          .inr ⟨[], ['\x1b', '\\'], others, by simp [hescape.1], hnil,
            by decide⟩
      rcases ih with hrest | ⟨body, ending, others, rfl, hbody, hending⟩
      · exact .inl ((hasNoEnding_cons_iff _ _).mpr ⟨hbell, hescape, hrest⟩)
      · refine .inr ⟨char :: body, ending, others, rfl, ?_, hending⟩
        rw [hasNoEnding_cons_iff]
        refine ⟨hbell, ?_, hbody⟩
        rintro ⟨rfl, hhead⟩
        obtain ⟨tail, rfl⟩ := List.head?_eq_some_iff.mp hhead
        exact hescape ⟨rfl, rfl⟩

/-- A text that goes on beyond an ending has one. -/
theorem not_hasNoEnding {ending : Text} (hending : ending ∈ commandEndings)
    (body rest : Text) : ¬ HasNoEnding (body ++ (ending ++ rest)) := by
  rintro ⟨hbell, hpair⟩
  rcases (mem_commandEndings_iff _).mp hending with rfl | rfl
  · exact hbell (by simp)
  · exact hpair ⟨body, rest, by simp⟩

/-- An ending does not begin before another one. -/
theorem eq_nil_of_ending {body middle ending other rest others : Text}
    (hmiddle : HasNoEnding (body ++ middle))
    (hending : ending ∈ commandEndings) (hother : other ∈ commandEndings)
    (htext : ending ++ rest = middle ++ (other ++ others)) : middle = [] := by
  by_contra hne
  obtain ⟨first, tail, rfl⟩ := List.exists_cons_of_ne_nil hne
  rcases (mem_commandEndings_iff _).mp hending with rfl | rfl
  · simp only [List.cons_append, List.nil_append, List.cons.injEq] at htext
    exact hmiddle.1 (by simp [← htext.1])
  · simp only [List.cons_append, List.nil_append, List.cons.injEq] at htext
    obtain ⟨rfl, htail⟩ := htext
    cases tail with
    | nil =>
        rcases (mem_commandEndings_iff _).mp hother with rfl | rfl
        · simp at htail
        · simp at htail
    | cons second following =>
        simp only [List.cons_append, List.cons.injEq] at htail
        exact hmiddle.2 ⟨body, following, by simp [← htail.1]⟩

theorem first_ending_unique {body other ending next rest others : Text}
    (hbody : HasNoEnding body) (hending : ending ∈ commandEndings)
    (hother : HasNoEnding other) (hnext : next ∈ commandEndings)
    (htext : body ++ (ending ++ rest) = other ++ (next ++ others)) :
    body = other ∧ ending = next ∧ rest = others := by
  have hsame : body = other := by
    rcases List.append_eq_append_iff.mp htext with
      ⟨middle, rfl, hmiddle⟩ | ⟨middle, rfl, hmiddle⟩
    · rw [eq_nil_of_ending hother hending hnext hmiddle, List.append_nil]
    · rw [eq_nil_of_ending hbody hnext hending hmiddle, List.append_nil]
  subst other
  have hrest := List.append_cancel_left htext
  rcases (mem_commandEndings_iff _).mp hending with rfl | rfl <;>
    rcases (mem_commandEndings_iff _).mp hnext with rfl | rfl <;>
    simp_all

/-! ## Every text has its segments -/

namespace BeginsWithSegment

theorem text_eq {text rest : Text} {segment : Segment}
    (hbegins : BeginsWithSegment text segment rest) :
    text = segment.written ++ rest := by
  cases hbegins <;> simp [Segment.written]

theorem of_control {after rest : Text} {segment : Segment}
    (hbegins : BeginsWithSegment ('\x1b' :: '[' :: after) segment rest) :
    (∃ body last,
        after = body ++ last :: rest ∧ (∀ char ∈ body, ¬ IsFinal char) ∧
          IsFinal last ∧ segment = .control body last) ∨
      ((∀ char ∈ after, ¬ IsFinal char) ∧ segment = .openControl after ∧
        rest = []) := by
  cases hbegins with
  | shown hchar => contradiction
  | control hbody hlast => exact .inl ⟨_, _, rfl, hbody, hlast, rfl⟩
  | openControl hbody => exact .inr ⟨hbody, rfl, rfl⟩
  | lone hcontrol => contradiction

theorem of_command {after rest : Text} {segment : Segment}
    (hbegins : BeginsWithSegment ('\x1b' :: ']' :: after) segment rest) :
    (∃ body ending,
        after = body ++ (ending ++ rest) ∧ HasNoEnding body ∧
          ending ∈ commandEndings ∧ segment = .command body ending) ∨
      (HasNoEnding after ∧ segment = .openCommand after ∧ rest = []) := by
  cases hbegins with
  | shown hchar => contradiction
  | command hbody hending => exact .inl ⟨_, _, rfl, hbody, hending, rfl⟩
  | openCommand hbody => exact .inr ⟨hbody, rfl, rfl⟩
  | lone hcontrol hcommand => contradiction

theorem of_lone {after rest : Text} {segment : Segment}
    (hbegins : BeginsWithSegment ('\x1b' :: after) segment rest)
    (hcontrol : after.head? ≠ some '[') (hcommand : after.head? ≠ some ']') :
    segment = .lone ∧ rest = after := by
  cases hbegins with
  | shown hchar => contradiction
  | control => simp at hcontrol
  | command => simp at hcommand
  | openControl => simp at hcontrol
  | openCommand => simp at hcommand
  | lone => exact ⟨rfl, rfl⟩

theorem of_shown {char : Char} (hchar : char ≠ '\x1b') {after rest : Text}
    {segment : Segment}
    (hbegins : BeginsWithSegment (char :: after) segment rest) :
    segment = .shown char ∧ rest = after := by
  cases hbegins with
  | shown => exact ⟨rfl, rfl⟩
  | _ => contradiction

theorem control_unique {after rest others : Text} {segment other : Segment}
    (hfirst : BeginsWithSegment ('\x1b' :: '[' :: after) segment rest)
    (hsecond : BeginsWithSegment ('\x1b' :: '[' :: after) other others) :
    segment = other ∧ rest = others := by
  rcases hfirst.of_control with
      ⟨body, last, rfl, hbody, hlast, rfl⟩ | ⟨hfree, rfl, rfl⟩ <;>
    rcases hsecond.of_control with
      ⟨next, final, htext, hnext, hfinal, rfl⟩ | ⟨hnone, rfl, rfl⟩
  · obtain ⟨rfl, rfl, rfl⟩ :=
      first_final_unique hbody hlast hnext hfinal htext
    exact ⟨rfl, rfl⟩
  · exact absurd hlast (hnone last (by simp))
  · exact absurd hfinal (hfree final (by simp [htext]))
  · exact ⟨rfl, rfl⟩

theorem command_unique {after rest others : Text} {segment other : Segment}
    (hfirst : BeginsWithSegment ('\x1b' :: ']' :: after) segment rest)
    (hsecond : BeginsWithSegment ('\x1b' :: ']' :: after) other others) :
    segment = other ∧ rest = others := by
  rcases hfirst.of_command with
      ⟨body, ending, rfl, hbody, hending, rfl⟩ | ⟨hfree, rfl, rfl⟩ <;>
    rcases hsecond.of_command with
      ⟨next, final, htext, hnext, hfinal, rfl⟩ | ⟨hnone, rfl, rfl⟩
  · obtain ⟨rfl, rfl, rfl⟩ :=
      first_ending_unique hbody hending hnext hfinal htext
    exact ⟨rfl, rfl⟩
  · exact absurd hnone (not_hasNoEnding hending _ _)
  · exact absurd (htext ▸ hfree) (not_hasNoEnding hfinal _ _)
  · exact ⟨rfl, rfl⟩

/-- A text begins with no more than one segment. -/
theorem unique {text rest others : Text} {segment other : Segment}
    (hfirst : BeginsWithSegment text segment rest)
    (hsecond : BeginsWithSegment text other others) :
    segment = other ∧ rest = others := by
  cases text with
  | nil => cases hfirst
  | cons char after =>
      by_cases hchar : char = '\x1b'
      · subst char
        by_cases hcontrol : after.head? = some '['
        · obtain ⟨after, rfl⟩ := List.head?_eq_some_iff.mp hcontrol
          exact control_unique hfirst hsecond
        by_cases hcommand : after.head? = some ']'
        · obtain ⟨after, rfl⟩ := List.head?_eq_some_iff.mp hcommand
          exact command_unique hfirst hsecond
        obtain ⟨rfl, rfl⟩ := hfirst.of_lone hcontrol hcommand
        obtain ⟨rfl, rfl⟩ := hsecond.of_lone hcontrol hcommand
        exact ⟨rfl, rfl⟩
      · obtain ⟨rfl, rfl⟩ := hfirst.of_shown hchar
        obtain ⟨rfl, rfl⟩ := hsecond.of_shown hchar
        exact ⟨rfl, rfl⟩

end BeginsWithSegment

theorem exists_beginsWithSegment {text : Text} (htext : text ≠ []) :
    ∃ segment rest, BeginsWithSegment text segment rest := by
  obtain ⟨char, after, rfl⟩ := List.exists_cons_of_ne_nil htext
  by_cases hchar : char = '\x1b'
  · subst char
    by_cases hcontrol : after.head? = some '['
    · obtain ⟨after, rfl⟩ := List.head?_eq_some_iff.mp hcontrol
      rcases exists_first_final after with
        hfree | ⟨body, last, rest, rfl, hbody, hlast⟩
      · exact ⟨_, _, .openControl hfree⟩
      · exact ⟨_, _, .control hbody hlast rest⟩
    by_cases hcommand : after.head? = some ']'
    · obtain ⟨after, rfl⟩ := List.head?_eq_some_iff.mp hcommand
      rcases exists_first_ending after with
        hfree | ⟨body, ending, rest, rfl, hbody, hending⟩
      · exact ⟨_, _, .openCommand hfree⟩
      · exact ⟨_, _, .command hbody hending rest⟩
    exact ⟨_, _, .lone hcontrol hcommand⟩
  · exact ⟨_, _, .shown hchar after⟩

namespace Segmented

theorem unique {text : Text} {segments others : List Segment}
    (hfirst : Segmented text segments) (hsecond : Segmented text others) :
    segments = others := by
  induction hfirst generalizing others with
  | nil =>
      cases hsecond with
      | nil => rfl
      | cons hbegins => cases hbegins
  | cons hbegins hrest ih =>
      cases hsecond with
      | nil => cases hbegins
      | cons hother hothers =>
          obtain ⟨rfl, rfl⟩ := hbegins.unique hother
          rw [ih hothers]

theorem exists_segments (text : Text) :
    ∃ segments, Segmented text segments := by
  by_cases htext : text = []
  · exact ⟨[], htext ▸ nil⟩
  · obtain ⟨segment, rest, hbegins⟩ := exists_beginsWithSegment htext
    have hlength : rest.length < text.length := by
      have hwritten : segment.written ≠ [] := by
        cases segment <;> simp [Segment.written]
      rw [hbegins.text_eq, List.length_append]
      have hpositive := List.length_pos_iff.mpr hwritten
      omega
    obtain ⟨segments, hrest⟩ := exists_segments rest
    exact ⟨segment :: segments, cons hbegins hrest⟩
termination_by text.length

theorem flatMap_written {text : Text} {segments : List Segment}
    (hsegments : Segmented text segments) :
    segments.flatMap Segment.written = text := by
  induction hsegments with
  | nil => rfl
  | cons hbegins hrest ih => rw [List.flatMap_cons, ih, ← hbegins.text_eq]

end Segmented

/-! ## What the segments show -/

namespace EscapeState

theorem printed_control {body : Text} (hbody : ∀ char ∈ body, ¬ IsFinal char)
    (rest : Text) : control.printed (body ++ rest) = control.printed rest := by
  induction body with
  | nil => rfl
  | cons char others ih =>
      obtain ⟨hchar, hothers⟩ := List.forall_mem_cons.mp hbody
      have hends : endsControl char = false := by
        rwa [← Bool.not_eq_true, endsControl_eq_true_iff]
      simpa [printed, prints, next, hends] using ih hothers

/-- Inside a command nothing is printed before an ending.  A backslash may not
come first where an escape character was read. -/
theorem printed_command {state : EscapeState} {body : Text}
    (hstate : state = command ∨ state = commandEscape)
    (hbody : HasNoEnding body)
    (hfirst : state = commandEscape → body.head? ≠ some '\\') (rest : Text) :
    ∃ following,
      (following = command ∨ following = commandEscape) ∧
        state.printed (body ++ rest) = following.printed rest := by
  induction body generalizing state with
  | nil => exact ⟨state, hstate, rfl⟩
  | cons char others ih =>
      obtain ⟨hbell, hpair, hothers⟩ := (hasNoEnding_cons_iff _ _).mp hbody
      have hprints : state.prints char = false := by
        rcases hstate with rfl | rfl <;> rfl
      have hslash : state = commandEscape → char ≠ '\\' := by
        intro hescape hchar
        exact hfirst hescape (by rw [hchar]; rfl)
      have hnext :
          state.next char =
            if char = '\x1b' then commandEscape else command := by
        rcases hstate with rfl | rfl
        · simp [next, hbell]
        · simp [next, hbell, hslash rfl]
      rw [List.cons_append, printed, hprints, hnext]
      by_cases hchar : char = '\x1b'
      · rw [if_pos hchar]
        exact ih (.inr rfl) hothers fun _ hhead => hpair ⟨hchar, hhead⟩
      · rw [if_neg hchar]
        exact ih (.inl rfl) hothers fun hsame => by contradiction

theorem printed_ending {state : EscapeState} {ending : Text}
    (hstate : state = command ∨ state = commandEscape)
    (hending : ending ∈ commandEndings) (rest : Text) :
    state.printed (ending ++ rest) = ground.printed rest := by
  rcases hstate with rfl | rfl <;>
    rcases (mem_commandEndings_iff _).mp hending with rfl | rfl <;> rfl

theorem printed_escape {rest : Text} (hcontrol : rest.head? ≠ some '[')
    (hcommand : rest.head? ≠ some ']') :
    escape.printed rest = ground.printed rest := by
  cases rest with
  | nil => rfl
  | cons char others =>
      have hbracket : char ≠ '[' := by simpa using hcontrol
      have hclose : char ≠ ']' := by simpa using hcommand
      simp [printed, prints, next, hbracket, hclose]

end EscapeState

theorem BeginsWithSegment.removeEscapes_eq {text rest : Text}
    {segment : Segment} (hbegins : BeginsWithSegment text segment rest) :
    removeEscapes text = segment.char?.toList ++ removeEscapes rest := by
  have hcommand {body : Text} (hbody : HasNoEnding body) (after : Text) :=
    @EscapeState.printed_command .command body (.inl rfl) hbody
      (fun hsame => by contradiction) after
  unfold removeEscapes
  cases hbegins with
  | shown hchar =>
      simp [EscapeState.printed, EscapeState.prints, EscapeState.next, hchar,
        Segment.char?]
  | control hbody hlast =>
      have hends := (endsControl_eq_true_iff _).mpr hlast
      show EscapeState.control.printed _ = _
      rw [EscapeState.printed_control hbody]
      simp [EscapeState.printed, EscapeState.prints, EscapeState.next, hends,
        Segment.char?]
  | command hbody hending =>
      show EscapeState.command.printed _ = _
      obtain ⟨following, hfollowing, hprinted⟩ := hcommand hbody _
      rw [hprinted, EscapeState.printed_ending hfollowing hending]
      rfl
  | openControl hbody =>
      have hprinted := EscapeState.printed_control hbody []
      rw [List.append_nil] at hprinted
      exact hprinted
  | openCommand hbody =>
      obtain ⟨following, -, hprinted⟩ := hcommand hbody []
      rw [List.append_nil] at hprinted
      exact hprinted
  | lone hcontrol hclose => exact EscapeState.printed_escape hcontrol hclose

theorem BeginsWithSegment.char?_ne {text rest : Text} {segment : Segment}
    (hbegins : BeginsWithSegment text segment rest) :
    segment.char? ≠ some '\x1b' := by
  cases hbegins with
  | shown hchar => simpa [Segment.char?] using hchar
  | _ => simp [Segment.char?]

/-- A segment that is complete, or has something behind it, stays the same with
more text behind. -/
theorem BeginsWithSegment.append {text rest : Text} {segment : Segment}
    (hbegins : BeginsWithSegment text segment rest)
    (hends : segment.IsComplete ∨ rest ≠ []) (more : Text) :
    BeginsWithSegment (text ++ more) segment (rest ++ more) := by
  cases hbegins with
  | shown hchar => exact .shown hchar _
  | control hbody hlast =>
      simpa using BeginsWithSegment.control hbody hlast (rest ++ more)
  | command hbody hending =>
      simpa using BeginsWithSegment.command hbody hending (rest ++ more)
  | openControl => simp [Segment.IsComplete] at hends
  | openCommand => simp [Segment.IsComplete] at hends
  | lone hcontrol hcommand =>
      obtain ⟨char, others, rfl⟩ :=
        List.exists_cons_of_ne_nil (hends.resolve_left id)
      exact .lone hcontrol hcommand

namespace Segmented

theorem removeEscapes_eq {text : Text} {segments : List Segment}
    (hsegments : Segmented text segments) :
    removeEscapes text = segments.filterMap Segment.char? := by
  induction hsegments with
  | nil => rfl
  | @cons text rest segment segments hbegins hrest ih =>
      rw [hbegins.removeEscapes_eq, ih]
      cases hchar : segment.char? <;> simp [hchar]

theorem escape_not_mem {text : Text} {segments : List Segment}
    (hsegments : Segmented text segments) :
    '\x1b' ∉ segments.filterMap Segment.char? := by
  induction hsegments with
  | nil => exact List.not_mem_nil
  | cons hbegins hrest ih =>
      rw [List.mem_filterMap]
      rintro ⟨segment, hsegment, hchar⟩
      rcases List.mem_cons.mp hsegment with rfl | hmem
      · exact hbegins.char?_ne hchar
      · exact ih (List.mem_filterMap.mpr ⟨segment, hmem, hchar⟩)

/-- Two texts of which the first ends with a complete segment have the segments
of both. -/
theorem append {first second : Text} {segments others : List Segment}
    (hfirst : Segmented first segments)
    (hends : ∀ last ∈ segments.getLast?, last.IsComplete)
    (hsecond : Segmented second others) :
    Segmented (first ++ second) (segments ++ others) := by
  induction hfirst with
  | nil => exact hsecond
  | @cons text rest segment segments hbegins hrest ih =>
      by_cases hlast : segments = []
      · subst segments
        cases hrest
        exact .cons (hbegins.append (.inl (hends segment rfl)) second) hsecond
      · have hne : rest ≠ [] := by
          rintro rfl
          cases hrest with
          | nil => exact hlast rfl
          | cons hnil => cases hnil
        apply Segmented.cons (hbegins.append (.inr hne) second)
        apply ih
        rw [List.getLast?_cons_of_ne_nil hlast] at hends
        exact hends

end Segmented

/-- A text has one list of segments, and without its escapes it is what they
show: no escape character is left, so nothing more can be removed, and a text
that has none is as it was.  Behind a complete segment two texts are told apart
as they are without their escapes. -/
theorem removeEscapes_segments :
    (∀ text : Text,
        ∃ segments,
          (∀ others, Segmented text others ↔ others = segments) ∧
            segments.flatMap Segment.written = text ∧
            removeEscapes text = segments.filterMap Segment.char?) ∧
      (∀ text : Text,
        '\x1b' ∉ removeEscapes text ∧
          removeEscapes (removeEscapes text) = removeEscapes text ∧
          ('\x1b' ∉ text → removeEscapes text = text)) ∧
      ∀ (first second : Text) (segments : List Segment),
        Segmented first segments →
          (∀ last ∈ segments.getLast?, last.IsComplete) →
            removeEscapes (first ++ second) =
                removeEscapes first ++ removeEscapes second ∧
              visibleWidth (first ++ second) =
                visibleWidth first + visibleWidth second := by
  refine ⟨?_, ?_, ?_⟩
  · intro text
    obtain ⟨segments, hsegments⟩ := Segmented.exists_segments text
    refine ⟨segments, ?_, hsegments.flatMap_written, hsegments.removeEscapes_eq⟩
    intro others
    constructor
    · intro hothers
      exact hothers.unique hsegments
    · rintro rfl
      exact hsegments
  · intro text
    have hunchanged {text : Text} (htext : '\x1b' ∉ text) :
        removeEscapes text = text :=
      (printed_ground_of_not_mem htext).1
    obtain ⟨segments, hsegments⟩ := Segmented.exists_segments text
    have hescape : '\x1b' ∉ removeEscapes text := by
      rw [hsegments.removeEscapes_eq]
      exact hsegments.escape_not_mem
    exact ⟨hescape, hunchanged hescape, hunchanged⟩
  · intro first second segments hfirst hends
    obtain ⟨others, hsecond⟩ := Segmented.exists_segments second
    have happend :
        removeEscapes (first ++ second) =
          removeEscapes first ++ removeEscapes second := by
      rw [(hfirst.append hends hsecond).removeEscapes_eq, List.filterMap_append,
        hfirst.removeEscapes_eq, hsecond.removeEscapes_eq]
    refine ⟨happend, ?_⟩
    rw [visibleWidth, happend, List.length_append, visibleWidth, visibleWidth]

/-- Escape characters alone, inside a control sequence and before the ending of
a command, in a text that ends with the command. -/
theorem removeEscapes_segments_nested :
    let first : Text :=
      ['a', '\x1b', '\x1b', '[', '3', '\x1b', '1', 'm', 'b', '\x1b', ']', '8',
        '\x1b', '\x1b', '\\']
    let second : Text := ['\x1b', 'c']
    let segments : List Segment :=
      [.shown 'a', .lone, .control ['3', '\x1b', '1'] 'm', .shown 'b',
        .command ['8', '\x1b'] ['\x1b', '\\']]
    Segmented first segments ∧
      (∀ last ∈ segments.getLast?, last.IsComplete) ∧
      removeEscapes (first ++ second) = ['a', 'b', 'c'] ∧
      visibleWidth (first ++ second) = visibleWidth first + 1 ∧
      '\x1b' ∉ ['a', 'b', 'c'] ∧
      removeEscapes ['a', 'b', 'c'] = ['a', 'b', 'c'] := by
  intro first second segments
  have hcontrol : ∀ char ∈ ['3', '\x1b', '1'], ¬ IsFinal char := by
    simp [IsFinal]
  have hcommand : HasNoEnding ['8', '\x1b'] := by
    unfold HasNoEnding
    decide
  have hending : ['\x1b', '\\'] ∈ commandEndings := by decide
  have hsegments : Segmented first segments :=
    .cons (.shown (by decide) _) <|
      .cons (.lone (by decide) (by decide)) <|
        .cons (.control hcontrol (by simp [IsFinal]) _) <|
          .cons (.shown (by decide) _) <|
            .cons (.command hcommand hending _) .nil
  have hends : ∀ last ∈ segments.getLast?, last.IsComplete := by
    intro last hlast
    obtain rfl : Segment.command ['8', '\x1b'] ['\x1b', '\\'] = last :=
      Option.some.inj hlast
    trivial
  obtain ⟨-, hunchanged, happend⟩ := removeEscapes_segments
  obtain ⟨hremoved, hwidth⟩ := happend first second segments hsegments hends
  have hfirst : removeEscapes first = ['a', 'b'] := by decide
  have hsecond : removeEscapes second = ['c'] := by decide
  rw [hfirst, hsecond] at hremoved
  have hplain : '\x1b' ∉ ['a', 'b', 'c'] := by decide
  exact
    ⟨hsegments, hends, hremoved, hwidth, hplain,
      (hunchanged ['a', 'b', 'c']).2.2 hplain⟩

end TerminalMarkup
