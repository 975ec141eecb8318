import TerminalMarkup.Proofs.ContinuousFlow

/-!
# Closing tags

A closing tag only closes: its body is never compared with an opening tag, and
where no style is open it may be left out.  Whether it is read as a tag depends
on the character right before it alone.
-/

namespace TerminalMarkup

theorem tagBody?_append_open {text : Text} (hlast : text.getLast? ≠ some '\\')
    (hbody : tagBody? text = none) (tail : Text) :
    tagBody? (text ++ '<' :: tail) = none := by
  induction text using tagBody?.induct with
  | case1 => simp [tagBody?]
  | case2 rest => simp [tagBody?] at hbody
  | case3 rest => simp [tagBody?]
  | case4 char rest ih =>
      simp only [tagBody?, Option.map_eq_none_iff] at hbody
      have hrest := ih (getLast?_ne_of_append ['\\', char] hlast) hbody
      simp [tagBody?, hrest]
  | case5 char rest hclose hopen hescape ih =>
      have hbackslash : char ≠ '\\' := by
        intro hchar
        cases rest with
        | nil => simp [hchar] at hlast
        | cons next others => exact hescape next others hchar rfl
      rw [tagBody?_cons_of_ne hopen hclose hbackslash,
        Option.map_eq_none_iff] at hbody
      have hrest := ih (getLast?_ne_of_append [char] hlast) hbody
      rw [List.cons_append, tagBody?_cons_of_ne hopen hclose hbackslash, hrest]
      rfl

theorem mark?_append_open {text : Text} (htext : text ≠ [])
    (hlast : text.getLast? ≠ some '\\') (hmark : mark? text = none)
    (tail : Text) : mark? (text ++ '<' :: tail) = none := by
  match text with
  | [] => contradiction
  | [char] =>
      have hbackslash : char ≠ '\\' := by
        simpa using hlast
      by_cases hopen : char = '<'
      · subst char
        simp [mark?]
      · exact mark?_eq_none_of_ne hopen (fun h => hbackslash h.1) tail
  | char :: next :: rest =>
      apply mark?_append_of_tagBody? _ hmark
      intro hbody
      exact
        tagBody?_append_open (getLast?_ne_of_append [char] hlast) hbody tail

theorem cutAtMark_append_open {text tail : Text} {found : Event × Text}
    (hlast : text.getLast? ≠ some '\\')
    (htag : mark? ('<' :: tail) = some found) :
    cutAtMark (text ++ '<' :: tail) =
      ((cutAtMark text).1, (cutAtMark text).2 ++ '<' :: tail) := by
  induction text with
  | nil => exact cutAtMark_of_mark? htag
  | cons char rest ih =>
      cases hmark : mark? (char :: rest) with
      | some first =>
          have happend := mark?_append hmark ('<' :: tail)
          rw [List.cons_append] at happend ⊢
          rw [cutAtMark_of_mark? happend, cutAtMark_of_mark? hmark]
          rfl
      | none =>
          have happend :=
            mark?_append_open (List.cons_ne_nil char rest) hlast hmark tail
          rw [List.cons_append] at happend ⊢
          rw [cutAtMark_cons_of_mark?_eq_none happend,
            cutAtMark_cons_of_mark?_eq_none hmark,
            ih (getLast?_ne_of_append [char] hlast)]

/-- A tag is an event of its own behind any text that does not end with a
backslash. -/
theorem events_append_open {text tail : Text} {found : Event × Text}
    (hlast : text.getLast? ≠ some '\\')
    (htag : mark? ('<' :: tail) = some found) :
    events (text ++ '<' :: tail) = events text ++ events ('<' :: tail) := by
  induction text using events.induct with
  | case1 text hnone =>
      rw [eq_nil_of_nextEvent?_eq_none hnone, events_nil]
      rfl
  | case2 text event rest hnext ih =>
      have hevents := events_of_nextEvent? hnext
      rcases nextEvent?_cases hnext with hmark | ⟨htext, hmark, rfl, rfl⟩
      · have hrest : rest.getLast? ≠ some '\\' := by
          obtain ⟨front, rfl⟩ := exists_append_of_mark? hmark
          exact getLast?_ne_of_append front hlast
        rw [events_of_mark? (mark?_append hmark _), hevents, ih hrest]
        rfl
      · have hrest : (cutAtMark text).2.getLast? ≠ some '\\' := by
          rw [← cutAtMark_append text] at hlast
          exact getLast?_ne_of_append _ hlast
        rw [events_of_mark?_eq_none (by simp)
            (mark?_append_open htext hlast hmark tail),
          cutAtMark_append_open hlast htag, hevents, ih hrest]
        rfl

/-! ## A bracket behind a backslash -/

namespace Event

/-- The characters of a text one by one, or a tag as a whole. -/
def letters : Event → List (Char ⊕ Event)
  | text content => content.map .inl
  | opening body => [.inr (opening body)]
  | closing body => [.inr (closing body)]

theorem flatMap_letters_cons (event : Event) (rest : List Event) :
    (cons event rest).flatMap letters = (event :: rest).flatMap letters := by
  unfold cons
  split
  · simp [letters]
  · rfl

end Event

theorem flatMap_letters_joinTexts (events : List Event) :
    (joinTexts events).flatMap Event.letters = events.flatMap Event.letters := by
  induction events with
  | nil => rfl
  | cons event rest ih =>
      rw [joinTexts_cons, Event.flatMap_letters_cons, List.flatMap_cons, ih,
        List.flatMap_cons]

theorem flatMap_letters_events_cons {char : Char} {rest : Text}
    (hmark : mark? (char :: rest) = none) :
    (events (char :: rest)).flatMap Event.letters =
      .inl char :: (events rest).flatMap Event.letters := by
  rw [← flatMap_letters_joinTexts, joinTexts_events_cons hmark,
    Event.flatMap_letters_cons, List.flatMap_cons, flatMap_letters_joinTexts]
  rfl

theorem getLast?_ne_of_mark? {text : Text} {event : Event}
    (hmark : mark? text = some (event, [])) : text.getLast? ≠ some '\\' := by
  have hbegins := beginsWithMark_of_mark? hmark
  generalize event.piece = piece at hbegins
  cases hbegins with
  | bracket => simp
  | opening => rw [List.getLast?_concat]; simp
  | closing => rw [List.getLast?_concat]; simp

/-- Behind a backslash the bracket of a tag is kept from beginning the tag, or
belongs to another one. -/
theorem getLast?_ne_of_letters_eq {text tail : Text} {tag : Event}
    {others : List (Char ⊕ Event)}
    (hletters :
      (events (text ++ '<' :: tail)).flatMap Event.letters =
        (events text).flatMap Event.letters ++ .inr tag :: others) :
    text.getLast? ≠ some '\\' := by
  -- Both readings of the text go on alike until the bracket matters.  There one
  -- of them has a character of the text, and the other a mark.
  induction text using marks_induction with
  | nil => simp
  | mark text rest event hmark ih =>
      by_cases hrest : rest = []
      · exact getLast?_ne_of_mark? (hrest ▸ hmark)
      · rw [events_of_mark? (mark?_append hmark _), events_of_mark? hmark,
          List.flatMap_cons, List.flatMap_cons, List.append_assoc,
          List.append_cancel_left_eq] at hletters
        obtain ⟨front, rfl⟩ := exists_append_of_mark? hmark
        rw [List.getLast?_append, List.getLast?_eq_some_getLast hrest]
        simpa [List.getLast?_eq_some_getLast hrest] using ih hletters
  | char char rest hmark ih =>
      rw [flatMap_letters_events_cons hmark, List.cons_append,
        List.cons_append] at hletters
      cases happend : mark? (char :: (rest ++ '<' :: tail)) with
      | none =>
          rw [flatMap_letters_events_cons happend, List.cons.injEq] at hletters
          cases rest with
          | nil =>
              intro hlast
              have hchar : char = '\\' := by simpa using hlast
              simp [hchar, mark?] at happend
          | cons next following => exact ih hletters.2
      | some found =>
          obtain ⟨event, following⟩ := found
          rw [events_of_mark? happend, List.flatMap_cons] at hletters
          cases event with
          | opening body => simp [Event.letters] at hletters
          | closing body => simp [Event.letters] at hletters
          | text content =>
              obtain ⟨rfl, htext⟩ := eq_of_mark?_text happend
              rw [(List.cons.inj htext).1] at hletters
              simp [Event.letters] at hletters

theorem mark?_closing_append {items : Text} (hitems : TagItems items)
    (after : Text) :
    mark? ((Event.closing items).raw ++ after) =
      some (.closing items, after) := by
  simp [Event.raw, mark?, hitems.tagBody?_eq]

theorem events_append_closing {before items : Text}
    (hbefore : before.getLast? ≠ some '\\') (hitems : TagItems items)
    (after : Text) :
    events (before ++ (Event.closing items).raw ++ after) =
      events before ++ .closing items :: events after := by
  have hmark := mark?_closing_append hitems after
  rw [List.append_assoc, ← events_of_mark? hmark]
  exact events_append_open hbefore hmark

/-- A closing tag is read where it stands just if no backslash is right before
it, whatever stands in the tag. -/
theorem joinTexts_events_append_closing_iff {items : Text}
    (hitems : TagItems items) (before after : Text) :
    joinTexts (events (before ++ (Event.closing items).raw ++ after)) =
        joinTexts (events before ++ .closing items :: events after) ↔
      before.getLast? ≠ some '\\' := by
  constructor
  · intro hevents
    have hletters := congrArg (List.flatMap Event.letters) hevents
    rw [flatMap_letters_joinTexts, flatMap_letters_joinTexts,
      List.flatMap_append, List.flatMap_cons, List.append_assoc] at hletters
    exact getLast?_ne_of_letters_eq hletters
  · intro hbefore
    rw [events_append_closing hbefore hitems]

/-! ## Output around a closing tag -/

namespace Formatter

theorem directives_append_closing (formatter : Formatter) {before items : Text}
    (hbefore : before.getLast? ≠ some '\\') (hitems : TagItems items)
    (after : Text) :
    formatter.directives (before ++ (Event.closing items).raw ++ after) =
      formatter.directives before ++ .leave :: formatter.directives after := by
  rw [directives, events_append_closing hbefore hitems, List.map_append,
    List.map_cons]
  rfl

/-- Where no style is open, a closing tag changes nothing, and nowhere does it
matter which closing tag it is. -/
theorem flow_closing_tag {before after items : Text}
    (hitems : TagItems items)
    (hevents :
      joinTexts (events (before ++ (Event.closing items).raw ++ after)) =
        joinTexts (events before ++ .closing items :: events after))
    (formatter : Formatter) (column : Int64) :
    (formatter.configuration.width.toNat < 2 ^ 63 →
        column.toNatClampNeg + before.length < 2 ^ 63 →
        joinTexts (events (before ++ after)) =
          joinTexts (events before ++ events after) →
        formatter.openStyles before = .empty →
        formatter.flow column (before ++ (Event.closing items).raw ++ after) =
          formatter.flow column (before ++ after)) ∧
      ∀ other, TagItems other →
        formatter.flow column (before ++ (Event.closing other).raw ++ after) =
          formatter.flow column
            (before ++ (Event.closing items).raw ++ after) := by
  have hbefore :=
    (joinTexts_events_append_closing_iff hitems before after).mp hevents
  have hclosing := formatter.directives_append_closing hbefore hitems after
  constructor
  · intro hwidth hbound hseam hopen
    have hwith :=
      wrapSpans_directives_append hwidth ⟨column, false⟩ hbound hopen
        (.leave :: formatter.directives after)
    have hwithout :=
      wrapSpans_directives_append hwidth ⟨column, false⟩ hbound hopen
        (formatter.directives after)
    -- Leaving the empty stack leads to the empty stack.
    have hleave :
        Directive.spans .empty
            (Directive.join (.leave :: formatter.directives after)) =
          Directive.spans .empty
            (Directive.join (formatter.directives after)) := rfl
    rw [flow_eq_wrapSpans, flow_eq_wrapSpans, writtenSpans_eq, writtenSpans_eq,
      hclosing, join_directives_append hseam, hwith, hwithout, hleave]
  · intro other hother
    apply flow_congr_directives
    rw [formatter.directives_append_closing hbefore hother, hclosing]

/-- The tag stands between a full line and the newline that the line absorbs. -/
theorem flow_closing_tag_full_line :
    let formatter : Formatter :=
      { configuration := Configuration.basic.withWidth 4 }
    let before := "<fg=red>ab</>cd".toList
    let after := "\nef".toList
    let written : Text × Int64 := ("\x1b[31mab\x1b[39mcd\nef".toList, 2)
    TagItems [] ∧
      joinTexts (events (before ++ "</>".toList ++ after)) =
        joinTexts (events before ++ .closing [] :: events after) ∧
      joinTexts (events (before ++ after)) =
        joinTexts (events before ++ events after) ∧
      formatter.openStyles before = .empty ∧
      formatter.flow 0 (before ++ after) = written ∧
      formatter.flow 0 (before ++ "</>".toList ++ after) = written ∧
      formatter.flow 0 (before ++ "</b\\>>".toList ++ after) = written := by
  intro formatter before after written
  have hevents :
      joinTexts (events (before ++ "</>".toList ++ after)) =
        joinTexts (events before ++ .closing [] :: events after) := by
    decide +kernel
  have hseam :
      joinTexts (events (before ++ after)) =
        joinTexts (events before ++ events after) := by
    decide +kernel
  have hopen : formatter.openStyles before = .empty := by decide +kernel
  have hwritten : formatter.flow 0 (before ++ after) = written := by
    decide +kernel
  have hother : TagItems "b\\>".toList :=
    .plain (by decide) (by decide) (by decide) (.escaped '>' .nil)
  obtain ⟨hstray, hany⟩ := flow_closing_tag .nil hevents formatter 0
  have hsame := hstray (by decide) (by decide) hseam hopen
  exact
    ⟨.nil, hevents, hseam, hopen, hwritten, hsame.trans hwritten,
      (hany _ hother).trans (hsame.trans hwritten)⟩

end Formatter

end TerminalMarkup
