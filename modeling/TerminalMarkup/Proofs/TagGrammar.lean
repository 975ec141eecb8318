import TerminalMarkup.MarkupScanner
import TerminalMarkup.Proofs.EventScan

/-!
# The grammar of marked-up texts

Tags are described here without a scan, by the items inside them, and a text is
tokenised from the left.  Every text has exactly one tokenisation, and reading
its events finds it.
-/

namespace TerminalMarkup

/-- The inside of a tag. -/
inductive TagItems : Text → Prop
  | nil : TagItems []
  | plain {char : Char} {items : Text} (hopen : char ≠ '<')
      (hclose : char ≠ '>') (hbackslash : char ≠ '\\')
      (hitems : TagItems items) : TagItems (char :: items)
  | escaped (char : Char) {items : Text} (hitems : TagItems items) :
      TagItems ('\\' :: char :: items)

/-- A text begins with a mark, which is cut off as a piece, and goes on with
another text. -/
inductive BeginsWithMark : Text → Piece → Text → Prop
  | bracket (rest : Text) :
      BeginsWithMark ('\\' :: '<' :: rest) (.text ['<']) rest
  | opening {letter : Char} {items : Text} (hletter : letter.isAlpha)
      (hitems : TagItems items) (rest : Text) :
      BeginsWithMark ('<' :: letter :: items ++ '>' :: rest)
        (.opening ('<' :: letter :: items ++ ['>']) (letter :: items)) rest
  | closing {items : Text} (hitems : TagItems items) (rest : Text) :
      BeginsWithMark ('<' :: '/' :: items ++ '>' :: rest)
        (.closing ('<' :: '/' :: items ++ ['>']) items) rest

def HasMark (text : Text) : Prop :=
  ∃ piece rest, BeginsWithMark text piece rest

/-- The pieces of a text from the left. -/
inductive Tokenised : Text → List Piece → Prop
  | nil : Tokenised [] []
  | mark {text rest : Text} {piece : Piece} {pieces : List Piece}
      (hmark : BeginsWithMark text piece rest)
      (hrest : Tokenised rest pieces) : Tokenised text (piece :: pieces)
  | before {before text : Text} {pieces : List Piece} (hbefore : before ≠ [])
      (hfree :
        ∀ offset < before.length, ¬ HasMark ((before ++ text).drop offset))
      (hmark : HasMark text) (htext : Tokenised text pieces) :
      Tokenised (before ++ text) (.text before :: pieces)
  | last {text : Text} (htext : text ≠ [])
      (hfree : ∀ offset, ¬ HasMark (text.drop offset)) :
      Tokenised text [.text text]

/-! ## Marks of the grammar -/

theorem ne_of_isAlpha {letter char : Char} (hletter : letter.isAlpha)
    (hchar : char.isAlpha = false) : letter ≠ char := by
  rintro rfl
  simp [hletter] at hchar

namespace TagItems

theorem of_tagBody? {text body rest : Text}
    (hbody : tagBody? text = some (body, rest)) : TagItems body := by
  induction text using tagBody?.induct generalizing body with
  | case1 => simp [tagBody?] at hbody
  | case2 others =>
      simp only [tagBody?, Option.some.injEq, Prod.mk.injEq] at hbody
      rw [← hbody.1]
      exact nil
  | case3 => simp [tagBody?] at hbody
  | case4 char others ih =>
      simp only [tagBody?, Option.map_eq_some_iff, Prod.mk.injEq] at hbody
      obtain ⟨found, hfound, hfirst, hsecond⟩ := hbody
      rw [← hfirst]
      apply escaped
      apply ih
      rw [hfound, ← hsecond]
  | case5 char others hclose hopen hescape ih =>
      rw [tagBody?.eq_5 char others hclose hopen hescape] at hbody
      simp only [Option.map_eq_some_iff, Prod.mk.injEq] at hbody
      obtain ⟨found, hfound, hfirst, hsecond⟩ := hbody
      have hbackslash : char ≠ '\\' := by
        intro hchar
        cases others with
        | nil => simp [tagBody?] at hfound
        | cons next following => exact hescape next following hchar rfl
      rw [← hfirst]
      apply plain hopen hclose hbackslash
      apply ih
      rw [hfound, ← hsecond]

theorem letter {letter : Char} {items : Text} (hletter : letter.isAlpha)
    (hitems : TagItems items) : TagItems (letter :: items) :=
  plain (ne_of_isAlpha hletter (by decide)) (ne_of_isAlpha hletter (by decide))
    (ne_of_isAlpha hletter (by decide)) hitems

theorem tagBody?_eq {items : Text} (hitems : TagItems items) (rest : Text) :
    tagBody? (items ++ '>' :: rest) = some (items, rest) := by
  induction hitems with
  | nil => rfl
  | plain hopen hclose hbackslash hitems ih =>
      rw [List.cons_append, tagBody?_cons_of_ne hopen hclose hbackslash, ih]
      rfl
  | escaped char hitems ih => simp [tagBody?, ih]

end TagItems

namespace Event

/-- The piece from which an event is read. -/
def piece : Event → Piece
  | text content => .text content
  | opening body => .opening (opening body).raw body
  | closing body => .closing (closing body).raw body

theorem event_piece (event : Event) : event.piece.event = event := by
  cases event <;> rfl

end Event

theorem beginsWithMark_of_mark? {text rest : Text} {event : Event}
    (hmark : mark? text = some (event, rest)) :
    BeginsWithMark text event.piece rest := by
  unfold mark? at hmark
  split at hmark
  · simp only [Option.some.injEq, Prod.mk.injEq] at hmark
    rw [← hmark.1, ← hmark.2]
    exact .bracket _
  next others =>
    simp only [Option.map_eq_some_iff, Prod.mk.injEq] at hmark
    obtain ⟨⟨body, following⟩, hfound, rfl, rfl⟩ := hmark
    rw [eq_append_of_tagBody? hfound]
    exact .closing (.of_tagBody? hfound) _
  next char others hslash =>
    split at hmark
    next hletter =>
      simp only [Option.map_eq_some_iff, Prod.mk.injEq] at hmark
      obtain ⟨⟨body, following⟩, hfound, rfl, rfl⟩ := hmark
      rw [tagBody?_cons_of_ne (ne_of_isAlpha hletter (by decide))
        (ne_of_isAlpha hletter (by decide))
        (ne_of_isAlpha hletter (by decide)),
        Option.map_eq_some_iff] at hfound
      obtain ⟨⟨items, others⟩, hitems, hbody⟩ := hfound
      simp only [Prod.mk.injEq] at hbody
      obtain ⟨rfl, rfl⟩ := hbody
      rw [eq_append_of_tagBody? hitems]
      exact .opening hletter (.of_tagBody? hitems) _
    · simp at hmark
  · simp at hmark

/-- A mark that is text is a bracket behind a backslash. -/
theorem eq_of_mark?_text {text content rest : Text}
    (hmark : mark? text = some (.text content, rest)) :
    content = ['<'] ∧ text = '\\' :: '<' :: rest := by
  have hbegins : BeginsWithMark text (.text content) rest :=
    beginsWithMark_of_mark? hmark
  cases hbegins
  exact ⟨rfl, rfl⟩

theorem BeginsWithMark.exists_mark? {text rest : Text} {piece : Piece}
    (hbegins : BeginsWithMark text piece rest) :
    ∃ event, event.piece = piece ∧ mark? text = some (event, rest) := by
  cases hbegins with
  | bracket => exact ⟨.text ['<'], rfl, rfl⟩
  | @opening letter items hletter hitems =>
      have hslash : letter ≠ '/' := ne_of_isAlpha hletter (by decide)
      have hbody := (hitems.letter hletter).tagBody?_eq rest
      refine ⟨.opening (letter :: items), rfl, ?_⟩
      simp only [List.cons_append] at hbody ⊢
      rw [mark?.eq_3 letter _ hslash, if_pos hletter, hbody]
      rfl
  | closing hitems =>
      refine ⟨.closing _, rfl, ?_⟩
      simp [mark?, hitems.tagBody?_eq]

theorem hasMark_iff (text : Text) : HasMark text ↔ (mark? text).isSome := by
  rw [Option.isSome_iff_exists]
  constructor
  · rintro ⟨piece, rest, hbegins⟩
    obtain ⟨event, -, hmark⟩ := hbegins.exists_mark?
    exact ⟨(event, rest), hmark⟩
  · rintro ⟨⟨event, rest⟩, hmark⟩
    exact ⟨event.piece, rest, beginsWithMark_of_mark? hmark⟩

theorem not_hasMark_iff (text : Text) : ¬ HasMark text ↔ mark? text = none := by
  rw [hasMark_iff, Option.not_isSome_iff_eq_none]

theorem mark?_drop_of_lt {text : Text} {offset : Nat}
    (hoffset : offset < (cutAtMark text).1.length) :
    mark? (text.drop offset) = none := by
  induction text generalizing offset with
  | nil => simp [cutAtMark] at hoffset
  | cons char rest ih =>
      simp only [cutAtMark] at hoffset
      split at hoffset
      · simp at hoffset
      next hmark =>
        cases offset with
        | zero => simpa using hmark
        | succ count => exact ih (by simpa using hoffset)

/-- What follows the text before the leftmost mark is nothing or a mark. -/
theorem cutAtMark_snd_eq_nil {text : Text}
    (hmark : mark? (cutAtMark text).2 = none) : (cutAtMark text).2 = [] := by
  induction text with
  | nil => rfl
  | cons char rest ih =>
      cases hfirst : mark? (char :: rest) with
      | some found =>
          rw [cutAtMark_of_mark? hfirst, hfirst] at hmark
          contradiction
      | none =>
          rw [cutAtMark_cons_of_mark?_eq_none hfirst] at hmark ⊢
          exact ih hmark

/-- A place without a mark to the left of it is where the text is cut, if a mark
stands there or the text ends. -/
theorem cutAtMark_append_eq {before text : Text}
    (hfree :
      ∀ offset < before.length, mark? ((before ++ text).drop offset) = none)
    (hcut : cutAtMark text = ([], text)) :
    cutAtMark (before ++ text) = (before, text) := by
  induction before with
  | nil => exact hcut
  | cons char rest ih =>
      have hfirst : mark? (char :: (rest ++ text)) = none :=
        hfree 0 (Nat.zero_lt_succ _)
      have hrest : cutAtMark (rest ++ text) = (rest, text) := by
        apply ih
        intro offset hoffset
        exact hfree (offset + 1) (Nat.succ_lt_succ hoffset)
      simp [cutAtMark, hfirst, hrest]

/-! ## Events of the grammar -/

/-- Text before a mark is a piece if what follows it is tokenised. -/
theorem tokenised_of_mark?_eq_none {text : Text} (htext : text ≠ [])
    (hmark : mark? text = none)
    (hrest :
      Tokenised (cutAtMark text).2
        ((events (cutAtMark text).2).map Event.piece)) :
    Tokenised text
      (.text (cutAtMark text).1 ::
        (events (cutAtMark text).2).map Event.piece) := by
  have happend := cutAtMark_append text
  have hfree (offset : Nat) (hoffset : offset < (cutAtMark text).1.length) :
      ¬ HasMark (text.drop offset) :=
    (not_hasMark_iff _).mpr (mark?_drop_of_lt hoffset)
  by_cases hafter : (cutAtMark text).2 = []
  · have hwhole : (cutAtMark text).1 = text := by
      rwa [hafter, List.append_nil] at happend
    rw [hwhole, hafter, events_nil]
    apply Tokenised.last htext
    intro offset
    by_cases hoffset : offset < text.length
    · exact hfree offset (by rwa [hwhole])
    · rw [List.drop_of_length_le (by omega), not_hasMark_iff]
      rfl
  · have hnext : HasMark (cutAtMark text).2 := by
      rw [hasMark_iff, Option.isSome_iff_ne_none]
      exact fun hnone => hafter (cutAtMark_snd_eq_nil hnone)
    have hbefore := cutAtMark_fst_ne_nil htext hmark
    have htokens := Tokenised.before hbefore (by rwa [happend]) hnext hrest
    rwa [happend] at htokens

theorem tokenised_events (text : Text) :
    Tokenised text ((events text).map Event.piece) := by
  induction text using events_induction with
  | nil =>
      rw [events_nil]
      exact .nil
  | mark text rest event hmark ih =>
      rw [events_of_mark? hmark, List.map_cons]
      exact .mark (beginsWithMark_of_mark? hmark) ih
  | cut text htext hmark ih =>
      rw [events_of_mark?_eq_none htext hmark, List.map_cons]
      exact tokenised_of_mark?_eq_none htext hmark ih

theorem Tokenised.eq_map_events {text : Text} {pieces : List Piece}
    (htokens : Tokenised text pieces) :
    pieces = (events text).map Event.piece := by
  induction htokens with
  | nil => simp
  | mark hmark hrest ih =>
      obtain ⟨event, hpiece, hmark⟩ := hmark.exists_mark?
      rw [events_of_mark? hmark, List.map_cons, hpiece, ih]
  | @before before text pieces hbefore hfree hmark htext ih =>
      obtain ⟨found, hfound⟩ :=
        Option.isSome_iff_exists.mp ((hasMark_iff _).mp hmark)
      have hcut : cutAtMark (before ++ text) = (before, text) := by
        apply cutAtMark_append_eq
        · intro offset hoffset
          exact (not_hasMark_iff _).mp (hfree offset hoffset)
        · exact cutAtMark_of_mark? hfound
      have hfirst : mark? (before ++ text) = none :=
        (not_hasMark_iff _).mp (hfree 0 (List.length_pos_iff.mpr hbefore))
      rw [events_of_mark?_eq_none (by simp [hbefore]) hfirst, hcut, ih]
      rfl
  | @last text htext hfree =>
      have hcut : cutAtMark (text ++ []) = (text, []) := by
        apply cutAtMark_append_eq
        · intro offset _
          rw [List.append_nil]
          exact (not_hasMark_iff _).mp (hfree offset)
        · rfl
      rw [List.append_nil] at hcut
      have hfirst : mark? text = none := (not_hasMark_iff _).mp (hfree 0)
      rw [events_of_mark?_eq_none htext hfirst, hcut, events_nil]
      rfl

/-- Every text has one tokenisation, and its pieces are those of the events. -/
theorem tokenised_iff (text : Text) (pieces : List Piece) :
    Tokenised text pieces ↔ pieces = (events text).map Event.piece := by
  constructor
  · exact Tokenised.eq_map_events
  · rintro rfl
    exact tokenised_events text

end TerminalMarkup
