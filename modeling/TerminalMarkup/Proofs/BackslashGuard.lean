import Mathlib.Data.List.Induction
import TerminalMarkup.Proofs.TagGrammar

/-!
# Guarded final backslashes

Guarding touches only the final run of backslashes and is undone by restoring.
A backslash takes the next character with it and a placeholder does not; but
behind the final run there is no `>`, so the tags stay the same.
-/

namespace TerminalMarkup

def restoreChar (char : Char) : Char :=
  if char = placeholder then '\\' else char

theorem restoreBackslashes_eq_map (text : Text) :
    restoreBackslashes text = text.map restoreChar := rfl

theorem restoreChar_eq_newline_iff (char : Char) :
    restoreChar char = '\n' ↔ char = '\n' := by
  unfold restoreChar
  split
  next hchar =>
    rw [hchar]
    decide
  next => exact Iff.rfl

theorem restoreBackslashes_of_not_mem {text : Text}
    (htext : placeholder ∉ text) : restoreBackslashes text = text := by
  have hkeep : ∀ char ∈ text, restoreChar char = id char := by
    intro char hchar
    have hne : char ≠ placeholder := fun heq => htext (heq ▸ hchar)
    exact if_neg hne
  rw [restoreBackslashes_eq_map, List.map_congr_left hkeep, List.map_id]

theorem guardFinalBackslashes_replicate (count : Nat) :
    guardFinalBackslashes (List.replicate count '\\') =
      List.replicate count placeholder := by
  induction count with
  | zero => rfl
  | succ count ih =>
      simp [List.replicate_succ, guardFinalBackslashes, ih]

theorem guardFinalBackslashes_append_replicate {front : Text}
    (hlast : front.getLast? ≠ some '\\') (count : Nat) :
    guardFinalBackslashes (front ++ List.replicate count '\\') =
      front ++ List.replicate count placeholder := by
  induction front with
  | nil => exact guardFinalBackslashes_replicate count
  | cons char rest ih =>
      have hrest : rest.getLast? ≠ some '\\' :=
        getLast?_ne_of_append [char] hlast
      have hrun :
          ¬ (char :: (rest ++ List.replicate count '\\')).all (· = '\\') := by
        intro hall
        have hmem := List.getLast_mem (List.cons_ne_nil char rest)
        rw [List.getLast?_eq_some_getLast (List.cons_ne_nil char rest)] at hlast
        apply hlast
        rw [← List.cons_append, List.all_append, Bool.and_eq_true] at hall
        simpa using List.all_eq_true.mp hall.1 _ hmem
      rw [List.cons_append, guardFinalBackslashes, if_neg hrun, ih hrest]
      rfl

/-- A text ends with a run of backslashes, maybe an empty one, and that run is
what guarding replaces. -/
theorem exists_guardFinalBackslashes (text : Text) :
    ∃ front count, front.getLast? ≠ some '\\' ∧
      text = front ++ List.replicate count '\\' ∧
      guardFinalBackslashes text = front ++ List.replicate count placeholder := by
  have hsplit :
      ∃ front count, front.getLast? ≠ some '\\' ∧
        text = front ++ List.replicate count '\\' := by
    induction text using List.reverseRecOn with
    | nil => exact ⟨[], 0, by simp, rfl⟩
    | append_singleton front char ih =>
        by_cases hchar : char = '\\'
        · obtain ⟨start, count, hlast, rfl⟩ := ih
          refine ⟨start, count + 1, hlast, ?_⟩
          rw [hchar, List.replicate_succ', List.append_assoc]
        · exact ⟨front ++ [char], 0, by simpa using hchar, by simp⟩
  obtain ⟨front, count, hlast, rfl⟩ := hsplit
  exact
    ⟨front, count, hlast, rfl, guardFinalBackslashes_append_replicate hlast count⟩

theorem guardFinalBackslashes_of_getLast? {text : Text}
    (hlast : text.getLast? ≠ some '\\') : guardFinalBackslashes text = text := by
  simpa using guardFinalBackslashes_append_replicate hlast 0

theorem getLast?_guardFinalBackslashes_ne (text : Text) :
    (guardFinalBackslashes text).getLast? ≠ some '\\' := by
  obtain ⟨front, count, hlast, -, hguard⟩ := exists_guardFinalBackslashes text
  rw [hguard]
  cases count with
  | zero => simpa using hlast
  | succ count =>
      rw [List.replicate_succ', ← List.append_assoc, List.getLast?_concat]
      decide

theorem guardFinalBackslashes_idem (text : Text) :
    guardFinalBackslashes (guardFinalBackslashes text) =
      guardFinalBackslashes text :=
  guardFinalBackslashes_of_getLast? (getLast?_guardFinalBackslashes_ne text)

theorem restoreBackslashes_guardFinalBackslashes (text : Text) :
    restoreBackslashes (guardFinalBackslashes text) =
      restoreBackslashes text := by
  obtain ⟨front, count, -, htext, hguard⟩ := exists_guardFinalBackslashes text
  rw [hguard, htext]
  simp only [restoreBackslashes_eq_map, List.map_append, List.map_replicate]
  rfl

theorem length_guardFinalBackslashes (text : Text) :
    (guardFinalBackslashes text).length = text.length := by
  obtain ⟨front, count, -, htext, hguard⟩ := exists_guardFinalBackslashes text
  rw [hguard, htext]
  simp

/-! ## The last text among events -/

namespace Event

/-- Guard the final backslashes of a text, and leave a tag alone. -/
def guarded : Event → Event
  | text content => text (guardFinalBackslashes content)
  | opening body => opening body
  | closing body => closing body

/-- Guard the final backslashes of the last text among events. -/
def guardLast : List Event → List Event
  | [] => []
  | event :: rest =>
      if rest.all isTag then
        event.guarded :: rest
      else
        event :: guardLast rest

theorem guardLast_append_text (front : List Event) (content : Text) :
    guardLast (front ++ [.text content]) =
      front ++ [.text (guardFinalBackslashes content)] := by
  induction front with
  | nil => rfl
  | cons event rest ih =>
      have hrest : (rest ++ [text content]).all isTag = false := by
        simp [isTag]
      rw [List.cons_append, guardLast, hrest, ih]
      rfl

theorem guarded_of_mark? {text rest : Text} {event : Event}
    (hmark : mark? text = some (event, rest)) : event.guarded = event := by
  cases event with
  | text content =>
      obtain ⟨rfl, -⟩ := eq_of_mark?_text hmark
      rfl
  | opening body => rfl
  | closing body => rfl

end Event

/-- A backslash right before a bracket is a mark, so no text before a tag ends
with one. -/
theorem getLast?_cutAtMark_ne {text tail : Text}
    (hafter : (cutAtMark text).2 = '<' :: tail) :
    (cutAtMark text).1.getLast? ≠ some '\\' := by
  intro hlast
  obtain ⟨front, hfront⟩ := List.getLast?_eq_some_iff.mp hlast
  have hnone : mark? (text.drop front.length) = none :=
    mark?_drop_of_lt (by simp [hfront])
  rw [← cutAtMark_append text, hfront, hafter] at hnone
  simp [mark?] at hnone

theorem getLast?_cutAtMark_ne_of_isTag {text : Text}
    (hlast : text.getLast? ≠ some '\\')
    (htags : (events (cutAtMark text).2).all Event.isTag = true) :
    (cutAtMark text).1.getLast? ≠ some '\\' := by
  by_cases hafter : (cutAtMark text).2 = []
  · have hwhole : (cutAtMark text).1 = text := by
      simpa [hafter] using cutAtMark_append text
    rwa [hwhole]
  · cases hmark : mark? (cutAtMark text).2 with
    | none => exact absurd (cutAtMark_snd_eq_nil hmark) hafter
    | some found =>
        obtain ⟨event, rest⟩ := found
        rw [events_of_mark? hmark, List.all_cons, Bool.and_eq_true] at htags
        obtain ⟨tail, htail⟩ := eq_cons_of_mark?_tag hmark htags.1
        exact getLast?_cutAtMark_ne htail

/-- Events of a text that ends in another character have nothing to guard. -/
theorem guardLast_events {text : Text} (hlast : text.getLast? ≠ some '\\') :
    Event.guardLast (events text) = events text := by
  induction text using events_induction with
  | nil => rw [events_nil, Event.guardLast]
  | mark text rest event hmark ih =>
      have hrest : rest.getLast? ≠ some '\\' := by
        obtain ⟨front, rfl⟩ := exists_append_of_mark? hmark
        exact getLast?_ne_of_append front hlast
      rw [events_of_mark? hmark, Event.guardLast, Event.guarded_of_mark? hmark,
        ih hrest, ite_self]
  | cut text htext hmark ih =>
      have hafter : (cutAtMark text).2.getLast? ≠ some '\\' := by
        rw [← cutAtMark_append text] at hlast
        exact getLast?_ne_of_append _ hlast
      rw [events_of_mark?_eq_none htext hmark, Event.guardLast, ih hafter]
      split
      next htags =>
        rw [Event.guarded, guardFinalBackslashes_of_getLast?
          (getLast?_cutAtMark_ne_of_isTag hlast htags)]
      next => rfl

/-- The last text before a final run ends in another character, since there is
nothing to guard in the events without the run. -/
theorem getLast?_ne_of_events_eq {text last : Text} {front : List Event}
    (htext : text.getLast? ≠ some '\\')
    (hevents : events text = front ++ textEvents last) :
    last.getLast? ≠ some '\\' := by
  by_cases hempty : last = []
  · simp [hempty]
  · have hkept := guardLast_events htext
    rw [hevents, textEvents, if_neg (by simpa using hempty),
      Event.guardLast_append_text] at hkept
    have hguarded : guardFinalBackslashes last = last := by
      simpa using hkept
    rw [← hguarded]
    exact getLast?_guardFinalBackslashes_ne last

/-- Guarding a text guards the last text among its events and nothing else. -/
theorem events_guardFinalBackslashes (text : Text) :
    events (guardFinalBackslashes text) = Event.guardLast (events text) := by
  obtain ⟨start, count, hstart, htext, hguard⟩ :=
    exists_guardFinalBackslashes text
  obtain ⟨front, last, hevents⟩ := exists_events_append_run start hstart
  have hlast : last.getLast? ≠ some '\\' := by
    apply getLast?_ne_of_events_eq hstart
    simpa using hevents [] (by simp [IsBackslashRun])
  cases count with
  | zero =>
      simp only [List.replicate_zero, List.append_nil] at htext hguard
      rw [hguard, htext, guardLast_events hstart]
  | succ count =>
      have hrun (char : Char) (hchar : char = '\\' ∨ char = placeholder) :
          events (start ++ List.replicate (count + 1) char) =
            front ++ [.text (last ++ List.replicate (count + 1) char)] := by
        rw [hevents _ (.replicate _ hchar)]
        simp [textEvents, List.replicate_succ]
      rw [hguard, hrun _ (.inr rfl), htext, hrun _ (.inl rfl),
        Event.guardLast_append_text,
        guardFinalBackslashes_append_replicate hlast]

end TerminalMarkup
