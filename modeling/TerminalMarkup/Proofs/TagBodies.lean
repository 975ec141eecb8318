import TerminalMarkup.Proofs.ScannedPieces

/-!
# The bodies of opening tags

Backslashes are paired when the end of a tag is looked for, and once more when
its body is interpreted.  The first pairing never leaves a backslash at the end
of a body, so tags can carry just the texts that begin with a letter.
-/

namespace TerminalMarkup

/-- A text with a backslash before each of its backslashes and brackets. -/
def escapeBody : Text → Text
  | [] => []
  | char :: rest =>
      if char = '\\' ∨ char = '<' ∨ char = '>' then
        '\\' :: char :: escapeBody rest
      else
        char :: escapeBody rest

/-- The opening tag that carries a text. -/
def tagOf (text : Text) : Text :=
  '<' :: escapeBody text ++ ['>']

def BeginsWithLetter (text : Text) : Prop :=
  ∃ letter rest, text = letter :: rest ∧ letter.isAlpha = true

theorem tagItems_escapeBody (text : Text) : TagItems (escapeBody text) := by
  induction text with
  | nil => exact .nil
  | cons char rest ih =>
      rw [escapeBody]
      split
      · exact .escaped char ih
      next hplain =>
        rw [not_or, not_or] at hplain
        exact .plain hplain.2.1 hplain.2.2 hplain.1 ih

theorem unescapeBody_cons_of_ne {char : Char} (hchar : char ≠ '\\')
    (rest : Text) : unescapeBody (char :: rest) = char :: unescapeBody rest :=
  unescapeBody.eq_4 char rest (fun heq => absurd heq hchar)
    (fun _ _ heq => absurd heq hchar)

theorem unescapeBody_escapeBody (text : Text) :
    unescapeBody (escapeBody text) = text := by
  induction text with
  | nil => rfl
  | cons char rest ih =>
      rw [escapeBody]
      split
      · rw [unescapeBody, ih]
      next hplain =>
        rw [unescapeBody_cons_of_ne (fun heq => hplain (.inl heq)), ih]

theorem mark?_tagOf_append {text : Text} (htext : BeginsWithLetter text)
    (after : Text) :
    mark? (tagOf text ++ after) =
      some (.opening (escapeBody text), after) := by
  obtain ⟨letter, rest, rfl, hletter⟩ := htext
  have hplain : ¬ (letter = '\\' ∨ letter = '<' ∨ letter = '>') := by
    rintro (rfl | rfl | rfl) <;> contradiction
  have hbody : escapeBody (letter :: rest) = letter :: escapeBody rest := by
    rw [escapeBody, if_neg hplain]
  have hbegins :=
    BeginsWithMark.opening hletter (tagItems_escapeBody rest) after
  obtain ⟨event, hpiece, hmark⟩ := hbegins.exists_mark?
  have hevent : event = .opening (letter :: escapeBody rest) := by
    rw [← event.event_piece, hpiece]
    rfl
  rw [tagOf, hbody]
  simpa [hevent] using hmark

/-- A tag at the beginning of a text, or behind another tag, is an event of its
own. -/
theorem events_append_tagOf_append {before text : Text}
    (hbefore : before = [] ∨ EndsWithTag before)
    (htext : BeginsWithLetter text) (after : Text) :
    events (before ++ tagOf text ++ after) =
      events before ++ .opening (escapeBody text) :: events after := by
  have htag := events_of_mark? (mark?_tagOf_append htext after)
  rw [List.append_assoc]
  rcases hbefore with rfl | hbefore
  · simpa using htag
  · rw [hbefore.events_append, htag]

/-- A body stands for a text: a backslash together with the character behind it
stands for that character, and any other character for itself.  A backslash at
the end of the body stands for nothing. -/
inductive StandsFor : Text → Text → Prop
  | nil : StandsFor [] []
  | plain {char : Char} {body text : Text} (hchar : char ≠ '\\')
      (hrest : StandsFor body text) : StandsFor (char :: body) (char :: text)
  | escaped (char : Char) {body text : Text} (hrest : StandsFor body text) :
      StandsFor ('\\' :: char :: body) (char :: text)

/-- The tag around a text is read as this tag alone, and means the text. -/
def IsCarried (text : Text) : Prop :=
  ∃ body,
    (Scanner.start (tagOf text)).pieces = [.opening (tagOf text) body] ∧
      unescapeBody body = text

theorem TagItems.standsFor {items : Text} (hitems : TagItems items) :
    StandsFor items (unescapeBody items) := by
  induction hitems with
  | nil => exact .nil
  | plain _ _ hbackslash _ ih =>
      rw [unescapeBody_cons_of_ne hbackslash]
      exact .plain hbackslash ih
  | escaped char _ ih => exact .escaped char ih

theorem StandsFor.even_of_run {body text : Text} (hbody : StandsFor body text)
    {front : Text} {count : Nat}
    (hsplit : body = front ++ List.replicate count '\\')
    (hfront : front.getLast? ≠ some '\\') : count % 2 = 0 := by
  induction hbody generalizing front count with
  | nil =>
      have hlength := congrArg List.length hsplit
      simp only [List.length_nil, List.length_append,
        List.length_replicate] at hlength
      omega
  | @plain char rest _ hchar _ ih =>
      cases front with
      | nil =>
          cases count with
          | zero => rfl
          | succ count =>
              rw [List.replicate_succ] at hsplit
              exact absurd (List.cons.inj hsplit).1 hchar
      | cons first others =>
          exact ih (List.cons.inj hsplit).2
            (getLast?_ne_of_append [first] hfront)
  | @escaped char rest _ _ ih =>
      match front, count with
      | [], 0 => rfl
      | [], 1 => simp at hsplit
      | [], count + 2 =>
          -- The run is longer by the backslash and what it escapes.
          simp only [List.replicate_succ, List.nil_append,
            List.cons.injEq, true_and] at hsplit
          have hrest := @ih [] count hsplit.2 (by simp)
          omega
      | [first], _ =>
          obtain rfl := (List.cons.inj hsplit).1
          simp at hfront
      | first :: second :: others, count =>
          exact ih (List.cons.inj (List.cons.inj hsplit).2).2
            (getLast?_ne_of_append [first, second] hfront)

/-! ## Bodies that are read -/

theorem exists_mark?_of_mem_events {text : Text} {event : Event}
    (hmem : event ∈ events text) (htag : event.isTag = true) :
    ∃ tail rest, mark? tail = some (event, rest) := by
  induction text using events_induction with
  | nil => simp at hmem
  | mark text rest first hmark ih =>
      rw [events_of_mark? hmark] at hmem
      rcases List.mem_cons.mp hmem with rfl | hrest
      · exact ⟨text, rest, hmark⟩
      · exact ih hrest
  | cut text htext hmark ih =>
      rw [events_of_mark?_eq_none htext hmark] at hmem
      rcases List.mem_cons.mp hmem with rfl | hrest
      · contradiction
      · exact ih hrest

theorem BeginsWithMark.exists_items {text raw body rest : Text}
    (hbegins : BeginsWithMark text (.opening raw body) rest) :
    ∃ letter items,
      body = letter :: items ∧ letter.isAlpha = true ∧ TagItems items := by
  cases hbegins with
  | opening hletter hitems => exact ⟨_, _, rfl, hletter, hitems⟩

theorem exists_items_of_opening_mem {text body : Text}
    (hmem : .opening body ∈ events text) :
    ∃ letter items,
      body = letter :: items ∧ letter.isAlpha = true ∧ TagItems items := by
  obtain ⟨tail, rest, hmark⟩ := exists_mark?_of_mem_events hmem rfl
  exact (beginsWithMark_of_mark? hmark).exists_items

theorem beginsWithLetter_unescapeBody {letter : Char} (items : Text)
    (hletter : letter.isAlpha = true) :
    BeginsWithLetter (unescapeBody (letter :: items)) := by
  rw [unescapeBody_cons_of_ne (ne_of_isAlpha hletter (by decide))]
  exact ⟨letter, _, rfl, hletter⟩

namespace Scanner

theorem opening_mem_events {text raw body : Text}
    (hmem : .opening raw body ∈ (start text).pieces) :
    .opening body ∈ events text := by
  rw [← map_event_pieces]
  exact List.mem_map.mpr ⟨_, hmem, rfl⟩

theorem pieces_tagOf {text : Text} (htext : BeginsWithLetter text) :
    (start (tagOf text)).pieces =
      [.opening (tagOf text) (escapeBody text)] := by
  have hmark := mark?_tagOf_append htext []
  rw [List.append_nil] at hmark
  rw [(standsBefore_start _).pieces_eq, events_of_mark? hmark, events_nil]
  rfl

theorem isCarried_iff (text : Text) :
    IsCarried text ↔ BeginsWithLetter text := by
  constructor
  · rintro ⟨body, hpieces, rfl⟩
    have hmem : .opening body ∈ events (tagOf (unescapeBody body)) := by
      apply opening_mem_events
      rw [hpieces]
      exact List.mem_singleton_self _
    obtain ⟨letter, items, rfl, hletter, -⟩ := exists_items_of_opening_mem hmem
    exact beginsWithLetter_unescapeBody items hletter
  · intro htext
    exact ⟨escapeBody text, pieces_tagOf htext, unescapeBody_escapeBody text⟩

/-- A tag can carry any text that begins with a letter.  In return the body of
every opening tag that is read stands for a text, its final backslashes are even
in number, and a tag can carry the text again. -/
theorem carried_texts :
    (∀ text, BeginsWithLetter text →
        (start (tagOf text)).pieces =
            [.opening (tagOf text) (escapeBody text)] ∧
          unescapeBody (escapeBody text) = text) ∧
      (∀ text, IsCarried text ↔ BeginsWithLetter text) ∧
      ∀ markup raw body, .opening raw body ∈ (start markup).pieces →
        StandsFor body (unescapeBody body) ∧
          (∀ front count, body = front ++ List.replicate count '\\' →
            front.getLast? ≠ some '\\' → count % 2 = 0) ∧
          IsCarried (unescapeBody body) := by
  refine ⟨?_, isCarried_iff, ?_⟩
  · intro text htext
    exact ⟨pieces_tagOf htext, unescapeBody_escapeBody text⟩
  · intro markup raw body hmem
    obtain ⟨letter, items, rfl, hletter, hitems⟩ :=
      exists_items_of_opening_mem (opening_mem_events hmem)
    have hstands := (hitems.letter hletter).standsFor
    refine ⟨hstands, ?_, ?_⟩
    · intro front count hsplit hfront
      exact hstands.even_of_run hsplit hfront
    · exact (isCarried_iff _).mpr (beginsWithLetter_unescapeBody items hletter)

/-- The text ends with a backslash.  The tag that is read escapes a letter, which
the tag around its text does not. -/
theorem carried_texts_backslashes :
    (BeginsWithLetter "a<\\é>\\".toList ∧
      (start "<a\\<\\\\é\\>\\\\>".toList).pieces =
        [.opening "<a\\<\\\\é\\>\\\\>".toList "a\\<\\\\é\\>\\\\".toList]) ∧
      .opening "<b\\é\\\\>".toList "b\\é\\\\".toList ∈
        (start "x<b\\é\\\\>".toList).pieces ∧
      StandsFor "b\\é\\\\".toList "bé\\".toList ∧
      IsCarried "bé\\".toList := by
  have hletter : BeginsWithLetter "a<\\é>\\".toList := ⟨_, _, rfl, by decide⟩
  have hread :
      .opening "<b\\é\\\\>".toList "b\\é\\\\".toList ∈
        (start "x<b\\é\\\\>".toList).pieces := by
    decide +kernel
  obtain ⟨hcarried, -, hbodies⟩ := carried_texts
  obtain ⟨hstands, -, hagain⟩ := hbodies _ _ _ hread
  exact ⟨⟨hletter, (hcarried _ hletter).1⟩, hread, hstands, hagain⟩

end Scanner

end TerminalMarkup
