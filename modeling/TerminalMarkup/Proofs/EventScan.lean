import TerminalMarkup.MarkupEvent

/-!
# Reading events from a text

What the scan of a text reads is kept in order.  A final run of backslashes only
makes the last text longer, and a text that ends with a tag is read alike with
anything behind it.  Neighbouring texts may be joined: readers of the markup
cannot tell.
-/

namespace TerminalMarkup

@[simp] theorem nextEvent?_nil : nextEvent? [] = none := rfl

@[simp] theorem events_nil : events [] = [] := by
  rw [events]
  rfl

theorem events_of_nextEvent? {text rest : Text} {event : Event}
    (hnext : nextEvent? text = some (event, rest)) :
    events text = event :: events rest := by
  rw [events]
  split
  next hnone =>
    rw [hnext] at hnone
    contradiction
  next found following hfound =>
    rw [hnext] at hfound
    simp only [Option.some.injEq, Prod.mk.injEq] at hfound
    rw [hfound.1, hfound.2]

theorem events_of_mark? {text rest : Text} {event : Event}
    (hmark : mark? text = some (event, rest)) :
    events text = event :: events rest := by
  apply events_of_nextEvent?
  unfold nextEvent?
  rw [hmark]

theorem cutAtMark_of_mark? {text : Text} {found : Event × Text}
    (hmark : mark? text = some found) :
    cutAtMark text = ([], text) := by
  cases text with
  | nil => rfl
  | cons char rest => simp [cutAtMark, hmark]

theorem cutAtMark_cons_of_mark?_eq_none {char : Char} {rest : Text}
    (hmark : mark? (char :: rest) = none) :
    cutAtMark (char :: rest) =
      (char :: (cutAtMark rest).1, (cutAtMark rest).2) := by
  simp [cutAtMark, hmark]

theorem cutAtMark_fst_ne_nil {text : Text} (htext : text ≠ [])
    (hmark : mark? text = none) :
    (cutAtMark text).1 ≠ [] := by
  obtain ⟨char, rest, rfl⟩ := List.exists_cons_of_ne_nil htext
  simp [cutAtMark, hmark]

theorem nextEvent?_of_mark?_eq_none {text : Text} (htext : text ≠ [])
    (hmark : mark? text = none) :
    nextEvent? text = some (.text (cutAtMark text).1, (cutAtMark text).2) := by
  have hbefore := cutAtMark_fst_ne_nil htext hmark
  unfold nextEvent?
  rw [hmark]
  cases hcut : cutAtMark text with
  | mk before after =>
      rw [hcut] at hbefore
      cases before with
      | nil => contradiction
      | cons char others => rfl

theorem events_of_mark?_eq_none {text : Text} (htext : text ≠ [])
    (hmark : mark? text = none) :
    events text =
      .text (cutAtMark text).1 :: events (cutAtMark text).2 :=
  events_of_nextEvent? (nextEvent?_of_mark?_eq_none htext hmark)

theorem eq_nil_of_nextEvent?_eq_none {text : Text}
    (hnext : nextEvent? text = none) : text = [] := by
  cases text with
  | nil => rfl
  | cons char rest =>
      cases hmark : mark? (char :: rest) with
      | some found => simp [nextEvent?, hmark] at hnext
      | none =>
          rw [nextEvent?_of_mark?_eq_none (List.cons_ne_nil _ _) hmark] at hnext
          contradiction

/-- The first event is the mark at the beginning, or else the text before the
leftmost mark. -/
theorem nextEvent?_cases {text rest : Text} {event : Event}
    (hnext : nextEvent? text = some (event, rest)) :
    mark? text = some (event, rest) ∨
      (text ≠ [] ∧ mark? text = none ∧ event = .text (cutAtMark text).1 ∧
        rest = (cutAtMark text).2) := by
  cases hmark : mark? text with
  | some found =>
      left
      simpa [nextEvent?, hmark] using hnext
  | none =>
      right
      have htext : text ≠ [] := by
        rintro rfl
        simp at hnext
      rw [nextEvent?_of_mark?_eq_none htext hmark, Option.some.injEq,
        Prod.mk.injEq] at hnext
      exact ⟨htext, rfl, hnext.1.symm, hnext.2.symm⟩

/-- Induction from event to event: a mark is read off the text, or else what
stands before the leftmost mark. -/
@[elab_as_elim]
theorem events_induction {motive : Text → Prop} (nil : motive [])
    (mark :
      ∀ (text rest : Text) (event : Event), mark? text = some (event, rest) →
        motive rest → motive text)
    (cut :
      ∀ text : Text, text ≠ [] → mark? text = none →
        motive (cutAtMark text).2 → motive text)
    (text : Text) : motive text := by
  induction text using events.induct with
  | case1 text hnone =>
      rw [eq_nil_of_nextEvent?_eq_none hnone]
      exact nil
  | case2 text event rest hnext ih =>
      rcases nextEvent?_cases hnext with hmark | ⟨htext, hmark, -, hrest⟩
      · exact mark text rest event hmark ih
      · exact cut text htext hmark (hrest ▸ ih)

/-- Induction from mark to mark, and from character to character where there is
no mark. -/
@[elab_as_elim]
theorem marks_induction {motive : Text → Prop} (nil : motive [])
    (mark :
      ∀ (text rest : Text) (event : Event), mark? text = some (event, rest) →
        motive rest → motive text)
    (char :
      ∀ (char : Char) (rest : Text), mark? (char :: rest) = none →
        motive rest → motive (char :: rest))
    (text : Text) : motive text := by
  induction hlength : text.length using Nat.strongRecOn generalizing text with
  | ind length ih =>
    subst hlength
    cases text with
    | nil => exact nil
    | cons first rest =>
        cases hmark : mark? (first :: rest) with
        | some found =>
            have hnext :
                nextEvent? (first :: rest) = some (found.1, found.2) := by
              rw [nextEvent?, hmark]
            have hshorter := length_lt_of_nextEvent? hnext
            exact mark _ _ _ hmark (ih _ hshorter _ rfl)
        | none =>
            have hshorter : rest.length < (first :: rest).length := by
              rw [List.length_cons]
              omega
            exact char first rest hmark (ih _ hshorter _ rfl)

/-- An event and the rest of the text are a part of the text, in order. -/
theorem raw_append_sublist_of_nextEvent? {text rest : Text} {event : Event}
    (hnext : nextEvent? text = some (event, rest)) :
    (event.raw ++ rest).Sublist text := by
  rcases nextEvent?_cases hnext with hmark | ⟨-, -, rfl, rfl⟩
  · rcases eq_append_of_mark? hmark with rfl | ⟨rfl, rfl⟩
    · exact List.Sublist.refl _
    · exact List.sublist_cons_self _ _
  · simp [Event.raw, cutAtMark_append]

theorem events_raw_sublist (text : Text) :
    ((events text).flatMap Event.raw).Sublist text := by
  induction text using events.induct with
  | case1 text hnone =>
      rw [events]
      split
      · exact List.nil_sublist _
      next hsome =>
        rw [hnone] at hsome
        contradiction
  | case2 text event rest hnext ih =>
      rw [events_of_nextEvent? hnext, List.flatMap_cons]
      calc
        (event.raw ++ (events rest).flatMap Event.raw).Sublist
            (event.raw ++ rest) := (List.append_sublist_append_left _).mpr ih
        _ |>.Sublist text := raw_append_sublist_of_nextEvent? hnext

/-! ## More text after a mark -/

theorem exists_append_of_mark? {text rest : Text} {event : Event}
    (hmark : mark? text = some (event, rest)) :
    ∃ front, text = front ++ rest := by
  rcases eq_append_of_mark? hmark with htext | ⟨-, htext⟩
  · exact ⟨event.raw, htext⟩
  · exact ⟨['\\', '<'], htext⟩

theorem tagBody?_cons_of_ne {char : Char} (hopen : char ≠ '<')
    (hclose : char ≠ '>') (hbackslash : char ≠ '\\') (rest : Text) :
    tagBody? (char :: rest) =
      (tagBody? rest).map fun found => (char :: found.1, found.2) :=
  tagBody?.eq_5 char rest hclose hopen
    fun _ _ hchar _ => hbackslash hchar

theorem tagBody?_append {text body rest : Text}
    (hbody : tagBody? text = some (body, rest)) (tail : Text) :
    tagBody? (text ++ tail) = some (body, rest ++ tail) := by
  induction text using tagBody?.induct generalizing body rest with
  | case1 => simp [tagBody?] at hbody
  | case2 others =>
      simp only [tagBody?, Option.some.injEq, Prod.mk.injEq] at hbody
      simp [tagBody?, ← hbody.1, ← hbody.2]
  | case3 => simp [tagBody?] at hbody
  | case4 char others ih =>
      simp only [tagBody?, Option.map_eq_some_iff, Prod.mk.injEq] at hbody
      obtain ⟨found, hfound, hfirst, hsecond⟩ := hbody
      simp [tagBody?, ih hfound, ← hfirst, ← hsecond]
  | case5 char others hclose hopen hescape ih =>
      rw [tagBody?.eq_5 char others hclose hopen hescape] at hbody
      simp only [Option.map_eq_some_iff, Prod.mk.injEq] at hbody
      obtain ⟨found, hfound, hfirst, hsecond⟩ := hbody
      have hothers : others ≠ [] := by
        rintro rfl
        simp [tagBody?] at hfound
      have hescape' :
          ∀ next following, char = '\\' →
            others ++ tail = next :: following → False := by
        intro next following hchar hlist
        obtain ⟨first, more, rfl⟩ := List.exists_cons_of_ne_nil hothers
        exact hescape first more hchar rfl
      rw [List.cons_append,
        tagBody?.eq_5 char (others ++ tail) hclose hopen hescape', ih hfound,
        ← hfirst, ← hsecond]
      rfl

theorem mark?_append {text rest : Text} {event : Event}
    (hmark : mark? text = some (event, rest)) (tail : Text) :
    mark? (text ++ tail) = some (event, rest ++ tail) := by
  unfold mark? at hmark
  split at hmark
  · simp only [Option.some.injEq, Prod.mk.injEq] at hmark
    simp [mark?, ← hmark.1, ← hmark.2]
  · simp only [Option.map_eq_some_iff, Prod.mk.injEq] at hmark
    obtain ⟨found, hfound, hevent, hrest⟩ := hmark
    simp [mark?, tagBody?_append hfound, ← hevent, ← hrest]
  next char others hslash =>
    split at hmark
    next halpha =>
      simp only [Option.map_eq_some_iff, Prod.mk.injEq] at hmark
      obtain ⟨found, hfound, hevent, hrest⟩ := hmark
      have hbody := tagBody?_append hfound tail
      rw [List.cons_append] at hbody
      rw [List.cons_append, List.cons_append,
        mark?.eq_3 char (others ++ tail) hslash]
      simp [halpha, hbody, ← hevent, ← hrest]
    · simp at hmark
  · simp at hmark

/-- A bracket begins a tag if a slash or a letter follows it and a body does. -/
theorem mark?_open_eq_none_iff (next : Char) (rest : Text) :
    mark? ('<' :: next :: rest) = none ↔
      (next ≠ '/' ∧ next.isAlpha = false) ∨
        tagBody? (next :: rest) = none := by
  by_cases hslash : next = '/'
  · subst next
    simp [mark?, tagBody?_cons_of_ne]
  · rw [mark?.eq_3 next rest hslash]
    cases next.isAlpha <;> simp [hslash]

theorem mark?_eq_none_of_ne {char next : Char} (hopen : char ≠ '<')
    (hescape : ¬ (char = '\\' ∧ next = '<')) (rest : Text) :
    mark? (char :: next :: rest) = none := by
  unfold mark?
  split
  next heq =>
    simp only [List.cons.injEq] at heq
    exact absurd ⟨heq.1, heq.2.1⟩ hescape
  next heq => exact absurd (List.cons.inj heq).1 hopen
  next heq => exact absurd (List.cons.inj heq).1 hopen
  next => rfl

/-- More text makes a mark only by ending the body of a tag. -/
theorem mark?_append_of_tagBody? {char next : Char} {rest tail : Text}
    (hbody :
      tagBody? (next :: rest) = none → tagBody? (next :: rest ++ tail) = none)
    (hmark : mark? (char :: next :: rest) = none) :
    mark? (char :: next :: rest ++ tail) = none := by
  by_cases hopen : char = '<'
  · subst char
    simp only [List.cons_append] at hbody ⊢
    rw [mark?_open_eq_none_iff] at hmark ⊢
    exact hmark.imp_right hbody
  · by_cases hescape : char = '\\' ∧ next = '<'
    · simp [hescape.1, hescape.2, mark?] at hmark
    · exact mark?_eq_none_of_ne hopen hescape _

/-! ## A run of backslashes at the end -/

/-- A text of backslashes or placeholders only. -/
def IsBackslashRun (tail : Text) : Prop :=
  ∀ char ∈ tail, char = '\\' ∨ char = placeholder

theorem tagBody?_eq_none_of_not_mem {text : Text} (htext : '>' ∉ text) :
    tagBody? text = none := by
  cases hbody : tagBody? text with
  | none => rfl
  | some found =>
      obtain ⟨body, rest⟩ := found
      have happend := eq_append_of_tagBody? hbody
      rw [happend] at htext
      simp at htext

theorem IsBackslashRun.close_not_mem {tail : Text}
    (htail : IsBackslashRun tail) : '>' ∉ tail := by
  intro hmem
  rcases htail _ hmem with hchar | hchar
  · exact absurd hchar (by decide)
  · exact absurd hchar (by decide)

theorem IsBackslashRun.of_cons {char : Char} {rest : Text}
    (htail : IsBackslashRun (char :: rest)) : IsBackslashRun rest :=
  fun other hother => htail other (List.mem_cons_of_mem _ hother)

theorem IsBackslashRun.replicate (count : Nat) {char : Char}
    (hchar : char = '\\' ∨ char = placeholder) :
    IsBackslashRun (List.replicate count char) := by
  intro other hother
  rw [List.eq_of_mem_replicate hother]
  exact hchar

theorem tagBody?_append_eq_none {text tail : Text}
    (htail : IsBackslashRun tail) (hbody : tagBody? text = none) :
    tagBody? (text ++ tail) = none := by
  induction text using tagBody?.induct with
  | case1 => exact tagBody?_eq_none_of_not_mem htail.close_not_mem
  | case2 others => simp [tagBody?] at hbody
  | case3 others => simp [tagBody?]
  | case4 char others ih =>
      simp only [tagBody?, Option.map_eq_none_iff] at hbody
      simp [tagBody?, ih hbody]
  | case5 char others hclose hopen hescape ih =>
      rw [tagBody?.eq_5 char others hclose hopen hescape,
        Option.map_eq_none_iff] at hbody
      by_cases hothers : others = []
      · subst others
        apply tagBody?_eq_none_of_not_mem
        simp only [List.singleton_append, List.mem_cons, not_or]
        exact ⟨fun hchar => hclose hchar.symm, htail.close_not_mem⟩
      · have hescape' :
            ∀ next following, char = '\\' →
              others ++ tail = next :: following → False := by
          intro next following hchar hlist
          obtain ⟨first, more, rfl⟩ := List.exists_cons_of_ne_nil hothers
          exact hescape first more hchar rfl
        rw [List.cons_append,
          tagBody?.eq_5 char (others ++ tail) hclose hopen hescape',
          ih hbody]
        rfl

theorem mark?_eq_none_of_isBackslashRun {tail : Text}
    (htail : IsBackslashRun tail) : mark? tail = none := by
  cases tail with
  | nil => rfl
  | cons char rest =>
      have hopen : '<' ∉ rest := by
        intro hmem
        rcases htail.of_cons _ hmem with hchar | hchar
        · exact absurd hchar (by decide)
        · exact absurd hchar (by decide)
      have hchar : char ≠ '<' := by
        rcases htail char List.mem_cons_self with rfl | rfl
        · decide
        · decide
      unfold mark?
      split
      next heq =>
        simp only [List.cons.injEq] at heq
        simp [heq.2] at hopen
      next heq => exact absurd (List.cons.inj heq).1 hchar
      next heq => exact absurd (List.cons.inj heq).1 hchar
      next => rfl

/-- A final run makes no mark of a text that ends with another character. -/
theorem mark?_append_eq_none {text tail : Text}
    (hlast : text.getLast? ≠ some '\\') (htail : IsBackslashRun tail)
    (hmark : mark? text = none) :
    mark? (text ++ tail) = none := by
  match text with
  | [] => exact mark?_eq_none_of_isBackslashRun htail
  | [char] =>
      have hchar : char ≠ '\\' := by
        simpa using hlast
      cases tail with
      | nil => exact hmark
      | cons first others =>
          have hfirst : first = '\\' ∨ first = placeholder :=
            htail first List.mem_cons_self
          by_cases hopen : char = '<'
          · subst char
            rcases hfirst with rfl | rfl
            · simp [mark?]
            · simp [mark?, placeholder]
          · simp [mark?, hchar, hopen]
  | char :: next :: others =>
      exact mark?_append_of_tagBody?
        (tagBody?_append_eq_none htail) hmark

theorem getLast?_ne_of_append (front : Text) {text : Text} {char : Char}
    (hlast : (front ++ text).getLast? ≠ some char) :
    text.getLast? ≠ some char := by
  intro htext
  apply hlast
  rw [List.getLast?_append, htext]
  rfl

theorem cutAtMark_of_isBackslashRun {tail : Text}
    (htail : IsBackslashRun tail) : cutAtMark tail = (tail, []) := by
  induction tail with
  | nil => rfl
  | cons char rest ih =>
      simp only [cutAtMark, mark?_eq_none_of_isBackslashRun htail,
        ih htail.of_cons]
      rfl

/-- The run goes with the text before the leftmost mark if there is no mark, and
stays behind the mark otherwise. -/
theorem cutAtMark_append_run {text tail : Text}
    (hlast : text.getLast? ≠ some '\\') (htail : IsBackslashRun tail) :
    cutAtMark (text ++ tail) =
      if (cutAtMark text).2 = [] then
        (text ++ tail, [])
      else
        ((cutAtMark text).1, (cutAtMark text).2 ++ tail) := by
  induction text with
  | nil => simpa [cutAtMark] using cutAtMark_of_isBackslashRun htail
  | cons char rest ih =>
      have hrest : rest.getLast? ≠ some '\\' :=
        getLast?_ne_of_append [char] hlast
      cases hmark : mark? (char :: rest) with
      | some found =>
          obtain ⟨event, others⟩ := found
          have happend := mark?_append hmark tail
          rw [List.cons_append] at happend
          simp [cutAtMark, hmark, happend]
      | none =>
          have happend := mark?_append_eq_none hlast htail hmark
          rw [List.cons_append] at happend
          simp only [List.cons_append, cutAtMark, hmark, happend,
            Option.isSome_none, Bool.false_eq_true, if_false, ih hrest]
          split <;> simp_all

/-- The event of a text without marks; an empty text is no event. -/
def textEvents (text : Text) : List Event :=
  if text.isEmpty then [] else [.text text]

theorem events_of_cutAtMark_eq {text : Text} (hcut : (cutAtMark text).2 = [])
    (hmark : mark? text = none) :
    events text = textEvents text := by
  by_cases htext : text = []
  · subst text
    simp [textEvents]
  · have hwhole : (cutAtMark text).1 = text := by
      simpa [hcut] using cutAtMark_append text
    rw [events_of_mark?_eq_none htext hmark, hcut, hwhole]
    simp [textEvents, htext]

/-- A final run makes the last text longer and changes no other event. -/
theorem exists_events_append_run (text : Text)
    (hlast : text.getLast? ≠ some '\\') :
    ∃ front last, ∀ tail, IsBackslashRun tail →
      events (text ++ tail) = front ++ textEvents (last ++ tail) := by
  -- The events before the last text come from the rest, which ends with the
  -- same character.
  induction text using events_induction with
  | nil =>
      refine ⟨[], [], ?_⟩
      intro tail htail
      have hcut := cutAtMark_of_isBackslashRun htail
      exact events_of_cutAtMark_eq (by simp [hcut])
        (mark?_eq_none_of_isBackslashRun htail)
  | mark text rest event hmark ih =>
      have hrest : rest.getLast? ≠ some '\\' := by
        obtain ⟨before, rfl⟩ := exists_append_of_mark? hmark
        exact getLast?_ne_of_append before hlast
      obtain ⟨front, last, hevents⟩ := ih hrest
      refine ⟨event :: front, last, ?_⟩
      intro tail htail
      rw [events_of_mark? (mark?_append hmark tail), hevents tail htail]
      rfl
  | cut text htext hmark ih =>
      by_cases hcut : (cutAtMark text).2 = []
      · refine ⟨[], text, ?_⟩
        intro tail htail
        apply events_of_cutAtMark_eq
        · rw [cutAtMark_append_run hlast htail, if_pos hcut]
        · exact mark?_append_eq_none hlast htail hmark
      · have hafter : (cutAtMark text).2.getLast? ≠ some '\\' := by
          rw [← cutAtMark_append text] at hlast
          exact getLast?_ne_of_append _ hlast
        obtain ⟨front, last, hevents⟩ := ih hafter
        refine ⟨.text (cutAtMark text).1 :: front, last, ?_⟩
        intro tail htail
        rw [events_of_mark?_eq_none (by simp [htext])
            (mark?_append_eq_none hlast htail hmark),
          cutAtMark_append_run hlast htail, if_neg hcut,
          hevents tail htail]
        rfl

/-! ## Joined texts -/

namespace Event

def isTag : Event → Bool
  | text _ => false
  | opening _ => true
  | closing _ => true

/-- Put an event in front of others; two texts become one. -/
def cons : Event → List Event → List Event
  | text first, text second :: rest => text (first ++ second) :: rest
  | event, rest => event :: rest

theorem cons_text_cons_text (first second : Text) (rest : List Event) :
    cons (.text first) (cons (.text second) rest) =
      cons (.text (first ++ second)) rest := by
  cases rest with
  | nil => rfl
  | cons event others =>
      cases event with
      | text content => simp [cons]
      | opening body => rfl
      | closing body => rfl

theorem filter_isTag_cons (event : Event) (rest : List Event) :
    (cons event rest).filter isTag = (event :: rest).filter isTag := by
  unfold cons
  split
  · simp [isTag]
  · rfl

end Event

/-- Events with every run of texts made one text. -/
def joinTexts (events : List Event) : List Event :=
  events.foldr Event.cons []

theorem joinTexts_cons (event : Event) (rest : List Event) :
    joinTexts (event :: rest) = event.cons (joinTexts rest) := rfl

theorem joinTexts_append (first second : List Event) :
    joinTexts (first ++ second) =
      first.foldr Event.cons (joinTexts second) :=
  List.foldr_append

theorem filter_isTag_joinTexts (events : List Event) :
    (joinTexts events).filter Event.isTag = events.filter Event.isTag := by
  induction events with
  | nil => rfl
  | cons event rest ih =>
      rw [joinTexts_cons, Event.filter_isTag_cons, List.filter_cons,
        List.filter_cons, ih]

/-- A character that begins no mark goes with the text after it. -/
theorem joinTexts_events_cons {char : Char} {rest : Text}
    (hmark : mark? (char :: rest) = none) :
    joinTexts (events (char :: rest)) =
      (Event.text [char]).cons (joinTexts (events rest)) := by
  rw [events_of_mark?_eq_none (List.cons_ne_nil _ _) hmark,
    cutAtMark_cons_of_mark?_eq_none hmark, joinTexts_cons]
  by_cases hrest : rest = []
  · subst rest
    rfl
  · cases hnext : mark? rest with
    | some found => rw [cutAtMark_of_mark? hnext]
    | none =>
        rw [events_of_mark?_eq_none hrest hnext, joinTexts_cons,
          Event.cons_text_cons_text]
        rfl

theorem joinTexts_textEvents_cons (char : Char) (text : Text)
    (others : List Event) :
    joinTexts (textEvents (char :: text) ++ others) =
      (Event.text [char]).cons (joinTexts (textEvents text ++ others)) := by
  by_cases htext : text = []
  · subst text
    rfl
  · have hwhole : textEvents text = [.text text] := by
      simp [textEvents, htext]
    rw [hwhole, List.singleton_append, joinTexts_cons,
      Event.cons_text_cons_text]
    rfl

/-- The last event of the text is a tag. -/
def EndsWithTag (text : Text) : Prop :=
  ∃ event, (events text).getLast? = some event ∧ event.isTag = true

theorem EndsWithTag.of_cons {text rest : Text} {event : Event}
    (htext : EndsWithTag text) (hevents : events text = event :: events rest)
    (hrest : rest ≠ []) :
    EndsWithTag rest := by
  obtain ⟨last, hlast, htag⟩ := htext
  refine ⟨last, ?_, htag⟩
  have hne : events rest ≠ [] := by
    cases hnext : nextEvent? rest with
    | none => exact absurd (eq_nil_of_nextEvent?_eq_none hnext) hrest
    | some found => simp [events_of_nextEvent? hnext]
  rw [hevents, List.getLast?_cons, List.getLast?_eq_some_getLast hne] at hlast
  rw [List.getLast?_eq_some_getLast hne]
  exact hlast

theorem eq_cons_of_mark?_tag {text rest : Text} {event : Event}
    (hmark : mark? text = some (event, rest)) (htag : event.isTag = true) :
    ∃ tail, text = '<' :: tail := by
  rcases eq_append_of_mark? hmark with htext | ⟨rfl, -⟩
  · cases event with
    | text content => contradiction
    | opening body => exact ⟨_, htext⟩
    | closing body => exact ⟨_, htext⟩
  · contradiction

/-- A tag at the end of a text stands there as it was written. -/
theorem EndsWithTag.exists_mark? {text : Text} (htext : EndsWithTag text) :
    ∃ front tail event,
      text = front ++ '<' :: tail ∧ mark? ('<' :: tail) = some (event, []) := by
  induction text using events_induction with
  | nil =>
      obtain ⟨last, hlast, -⟩ := htext
      simp at hlast
  | mark text rest event hmark ih =>
      have hevents := events_of_mark? hmark
      by_cases hrest : rest = []
      · subst rest
        obtain ⟨last, hlast, htag⟩ := htext
        rw [hevents, events_nil, List.getLast?_singleton,
          Option.some.injEq] at hlast
        subst last
        obtain ⟨tail, rfl⟩ := eq_cons_of_mark?_tag hmark htag
        exact ⟨[], tail, event, rfl, hmark⟩
      · obtain ⟨front, tail, last, hsplit, hlast⟩ :=
          ih (htext.of_cons hevents hrest)
        obtain ⟨before, hbefore⟩ := exists_append_of_mark? hmark
        refine ⟨before ++ front, tail, last, ?_, hlast⟩
        rw [hbefore, hsplit, List.append_assoc]
  | cut text hne hmark ih =>
      have hevents := events_of_mark?_eq_none hne hmark
      by_cases hrest : (cutAtMark text).2 = []
      · obtain ⟨last, hlast, htag⟩ := htext
        rw [hevents, hrest, events_nil, List.getLast?_singleton,
          Option.some.injEq] at hlast
        subst last
        contradiction
      · obtain ⟨front, tail, last, hsplit, hlast⟩ :=
          ih (htext.of_cons hevents hrest)
        refine ⟨(cutAtMark text).1 ++ front, tail, last, ?_, hlast⟩
        rw [List.append_assoc, ← hsplit, cutAtMark_append]

theorem tagBody?_of_mark? {tail rest : Text} {event : Event}
    (hmark : mark? ('<' :: tail) = some (event, rest)) :
    ∃ body, tagBody? tail = some (body, rest) := by
  cases tail with
  | nil => simp [mark?] at hmark
  | cons char others =>
      by_cases hslash : char = '/'
      · subst char
        simp only [mark?, Option.map_eq_some_iff, Prod.mk.injEq] at hmark
        obtain ⟨found, hfound, -, hrest⟩ := hmark
        exact ⟨'/' :: found.1, by simp [tagBody?, hfound, hrest]⟩
      · rw [mark?.eq_3 char others hslash] at hmark
        split at hmark
        · simp only [Option.map_eq_some_iff, Prod.mk.injEq] at hmark
          obtain ⟨found, hfound, -, hrest⟩ := hmark
          exact ⟨found.1, by rw [hfound, ← hrest]⟩
        · simp at hmark

/-- A bracket that begins no tag before the last tag of a text begins none with
more text behind it: the scan stops at the bracket of the last tag, or passes it
by an escape and ends at its end. -/
theorem tagBody?_append_of_tag (front : Text) {tail : Text} {event : Event}
    (hmark : mark? ('<' :: tail) = some (event, []))
    (hbody : tagBody? (front ++ '<' :: tail) = none) (after : Text) :
    tagBody? (front ++ '<' :: tail ++ after) = none := by
  induction front using tagBody?.induct with
  | case1 => simp [tagBody?]
  | case2 rest => simp [tagBody?] at hbody
  | case3 rest => simp [tagBody?]
  | case4 char rest ih =>
      simp only [List.cons_append, tagBody?, Option.map_eq_none_iff] at hbody
      simpa [tagBody?] using ih hbody
  | case5 char rest hclose hopen hescape ih =>
      by_cases hbackslash : char = '\\'
      · cases rest with
        | nil =>
            obtain ⟨body, htail⟩ := tagBody?_of_mark? hmark
            subst char
            simp [tagBody?, htail] at hbody
        | cons next others => exact (hescape next others hbackslash rfl).elim
      · simp only [List.cons_append,
          tagBody?_cons_of_ne hopen hclose hbackslash,
          Option.map_eq_none_iff] at hbody ⊢
        exact ih hbody

theorem mark?_append_of_tag (front : Text) {tail : Text} {event : Event}
    (hmark : mark? ('<' :: tail) = some (event, []))
    (hnone : mark? (front ++ '<' :: tail) = none) (after : Text) :
    mark? (front ++ '<' :: tail ++ after) = none := by
  match front with
  | [] => simp [hmark] at hnone
  | [char] =>
      by_cases hopen : char = '<'
      · subst char
        simp [mark?]
      · by_cases hbackslash : char = '\\'
        · simp [mark?, hbackslash] at hnone
        · simp [mark?, hopen, hbackslash]
  | char :: next :: rest =>
      exact mark?_append_of_tagBody?
        (fun hbody => tagBody?_append_of_tag (next :: rest) hmark hbody after)
        hnone

theorem cutAtMark_append_of_tag {front tail : Text} {event : Event}
    (hmark : mark? ('<' :: tail) = some (event, [])) (after : Text) :
    cutAtMark (front ++ '<' :: tail ++ after) =
      ((cutAtMark (front ++ '<' :: tail)).1,
        (cutAtMark (front ++ '<' :: tail)).2 ++ after) := by
  induction front with
  | nil =>
      have happend := mark?_append hmark after
      simp only [List.nil_append]
      rw [cutAtMark_of_mark? happend, cutAtMark_of_mark? hmark]
  | cons char rest ih =>
      cases hfirst : mark? (char :: (rest ++ '<' :: tail)) with
      | some found =>
          have happend := mark?_append hfirst after
          simp only [List.cons_append] at happend ⊢
          rw [cutAtMark_of_mark? happend, cutAtMark_of_mark? hfirst]
          rfl
      | none =>
          have happend :=
            mark?_append_of_tag (char :: rest) hmark hfirst after
          simp only [List.cons_append] at happend ⊢
          rw [cutAtMark_cons_of_mark?_eq_none happend,
            cutAtMark_cons_of_mark?_eq_none hfirst, ih]

/-- More text behind the last tag leaves the first event as it is. -/
theorem EndsWithTag.nextEvent?_append {text rest : Text} {event : Event}
    (htext : EndsWithTag text) (hnext : nextEvent? text = some (event, rest))
    (after : Text) :
    nextEvent? (text ++ after) = some (event, rest ++ after) := by
  rcases nextEvent?_cases hnext with hmark | ⟨-, hmark, hevent, hrest⟩
  · rw [nextEvent?, mark?_append hmark after]
  · obtain ⟨front, tail, tag, rfl, htag⟩ := htext.exists_mark?
    rw [nextEvent?_of_mark?_eq_none (by simp)
        (mark?_append_of_tag front htag hmark after),
      cutAtMark_append_of_tag htag after, hevent, hrest]

/-- Text behind a tag is read on its own. -/
theorem EndsWithTag.events_append {before : Text}
    (hbefore : EndsWithTag before) (after : Text) :
    events (before ++ after) = events before ++ events after := by
  -- As long as some text is left, that text ends with the tag.
  induction before using events.induct with
  | case1 text hnone =>
      rw [eq_nil_of_nextEvent?_eq_none hnone, events_nil]
      rfl
  | case2 text event rest hnext ih =>
      have hevents := events_of_nextEvent? hnext
      have hrest : events (rest ++ after) = events rest ++ events after := by
        by_cases hrest : rest = []
        · simp [hrest]
        · exact ih (hbefore.of_cons hevents hrest)
      rw [hevents, List.cons_append, ← hrest]
      exact events_of_nextEvent? (hbefore.nextEvent?_append hnext after)

end TerminalMarkup
