import TerminalMarkup.Proofs.PlainFlow

/-!
# Escaped texts

In an escaped text no bracket starts a tag, whatever stands around it, so the
formatter prints it as text without the backslashes before its brackets.  These
backslashes are all that escaping adds, and escaping again adds none.
-/

namespace TerminalMarkup

/-- The text that a terminal without tags prints: brackets without the backslash
before them. -/
def unescapeBrackets : Text → Text
  | [] => []
  | '\\' :: '<' :: rest => '<' :: unescapeBrackets rest
  | char :: rest => char :: unescapeBrackets rest

/-- Every bracket has a backslash before it that belongs to no other bracket. -/
inductive BracketsEscaped : Text → Prop
  | nil : BracketsEscaped []
  | bracket {rest : Text} (hrest : BracketsEscaped rest) :
      BracketsEscaped ('\\' :: '<' :: rest)
  | letter {char : Char} {rest : Text} (hchar : char ≠ '<')
      (hrest : BracketsEscaped rest) : BracketsEscaped (char :: rest)

/-! ## Brackets and their backslashes -/

theorem unescapeBrackets_sublist (text : Text) :
    (unescapeBrackets text).Sublist text := by
  induction text using unescapeBrackets.induct with
  | case1 => exact List.Sublist.refl _
  | case2 rest ih =>
      simp only [unescapeBrackets]
      exact (ih.cons_cons '<').cons '\\'
  | case3 char rest hescape ih =>
      rw [unescapeBrackets.eq_3 char rest hescape]
      exact ih.cons_cons char

theorem length_unescapeBrackets_lt {text : Text}
    (hescape : ['\\', '<'] <:+: text) :
    (unescapeBrackets text).length < text.length := by
  induction text using unescapeBrackets.induct with
  | case1 => simp at hescape
  | case2 rest _ =>
      have hrest := (unescapeBrackets_sublist rest).length_le
      simp only [unescapeBrackets, List.length_cons]
      omega
  | case3 char rest hno ih =>
      rw [unescapeBrackets.eq_3 char rest hno]
      rcases List.infix_cons_iff.mp hescape with hfirst | hrest
      · obtain ⟨tail, htail⟩ := hfirst
        simp only [List.cons_append, List.nil_append, List.cons.injEq] at htail
        exact absurd htail.2.symm (hno tail htail.1.symm)
      · have hlength := ih hrest
        simp only [List.length_cons]
        omega

theorem unescapeBrackets_of_no_pair {text : Text}
    (hescape : ¬ ['\\', '<'] <:+: text) : unescapeBrackets text = text := by
  induction text using unescapeBrackets.induct with
  | case1 => rfl
  | case2 rest _ =>
      have hfirst : ['\\', '<'] <:+: '\\' :: '<' :: rest :=
        (List.prefix_append ['\\', '<'] rest).isInfix
      exact absurd hfirst hescape
  | case3 char rest hno ih =>
      have hrest : ¬ ['\\', '<'] <:+: rest :=
        fun hrest => hescape (List.infix_cons hrest)
      rw [unescapeBrackets.eq_3 char rest hno, ih hrest]

theorem escapeBrackets_head_ne (text rest : Text) :
    escapeBrackets text ≠ '<' :: rest := by
  unfold escapeBrackets
  split
  · simp
  · simp
  · simp
  next char others _ hchar =>
    intro heq
    exact hchar (List.cons.inj heq).1

theorem unescapeBrackets_escapeBrackets (text : Text) :
    unescapeBrackets (escapeBrackets text) = unescapeBrackets text := by
  induction text using escapeBrackets.induct with
  | case1 => rfl
  | case2 rest ih => simp only [escapeBrackets, unescapeBrackets, ih]
  | case3 rest ih =>
      have hbracket :
          unescapeBrackets ('<' :: rest) = '<' :: unescapeBrackets rest := by
        simp [unescapeBrackets]
      simp only [escapeBrackets, unescapeBrackets, ih, hbracket]
  | case4 char rest hescape hbracket ih =>
      rw [escapeBrackets.eq_4 char rest hescape hbracket,
        unescapeBrackets.eq_3 char rest hescape,
        unescapeBrackets.eq_3 char (escapeBrackets rest), ih]
      intro others _ hrest
      exact escapeBrackets_head_ne rest others hrest

/-- Guarding keeps every backslash that stands before a bracket. -/
theorem restoreBackslashes_unescapeBrackets_guard (text : Text) :
    restoreBackslashes (unescapeBrackets (guardFinalBackslashes text)) =
      restoreBackslashes (unescapeBrackets text) := by
  induction text using unescapeBrackets.induct with
  | case1 => rfl
  | case2 rest ih =>
      simp only [restoreBackslashes_eq_map] at ih ⊢
      simp [guardFinalBackslashes, unescapeBrackets, ih]
  | case3 char rest hescape ih =>
      simp only [restoreBackslashes_eq_map] at ih ⊢
      have hrest :
          ∀ others, char = '\\' →
            guardFinalBackslashes rest = '<' :: others → False := by
        intro others hchar hguard
        cases rest with
        | nil => simp [guardFinalBackslashes] at hguard
        | cons next following =>
            simp only [guardFinalBackslashes, List.cons.injEq] at hguard
            by_cases hrun : (next :: following).all (· = '\\')
            · rw [if_pos hrun] at hguard
              exact absurd hguard.1 (by decide)
            · rw [if_neg hrun] at hguard
              exact hescape following hchar (by rw [hguard.1])
      rw [unescapeBrackets.eq_3 char rest hescape]
      simp only [guardFinalBackslashes]
      by_cases hrun : (char :: rest).all (· = '\\')
      · have hchar : char = '\\' := by
          simpa using (List.all_eq_true.mp hrun) char List.mem_cons_self
        rw [if_pos hrun, unescapeBrackets.eq_3 placeholder _ (by
          intro others hplaceholder
          exact absurd hplaceholder (by decide))]
        simp only [List.map_cons, ih, hchar]
        rfl
      · rw [if_neg hrun, unescapeBrackets.eq_3 char _ hrest]
        simp only [List.map_cons, ih]

/-! ## Reading an escaped text -/

theorem bracketsEscaped_escapeBrackets (text : Text) :
    BracketsEscaped (escapeBrackets text) := by
  induction text using escapeBrackets.induct with
  | case1 => exact .nil
  | case2 rest ih => exact .bracket ih
  | case3 rest ih => exact .bracket ih
  | case4 char rest hescape hbracket ih =>
      rw [escapeBrackets.eq_4 char rest hescape hbracket]
      exact .letter hbracket ih

namespace BracketsEscaped

theorem guarded {text : Text} (htext : BracketsEscaped text) :
    BracketsEscaped (guardFinalBackslashes text) := by
  induction htext with
  | nil => exact .nil
  | bracket _ ih =>
      simp only [guardFinalBackslashes, List.all_cons]
      exact .bracket ih
  | @letter char rest hchar _ ih =>
      simp only [guardFinalBackslashes]
      apply letter _ ih
      split
      · decide
      · exact hchar

theorem head_ne {char : Char} {rest : Text}
    (htext : BracketsEscaped (char :: rest)) : char ≠ '<' := by
  cases htext with
  | bracket _ => decide
  | letter hchar _ => exact hchar

theorem mark?_eq_none {char : Char} {rest : Text} (hchar : char ≠ '<')
    (hrest : BracketsEscaped rest) : mark? (char :: rest) = none := by
  unfold mark?
  split
  next others heq =>
    rw [(List.cons.inj heq).2] at hrest
    exact absurd rfl hrest.head_ne
  next heq => exact absurd (List.cons.inj heq).1 hchar
  next heq => exact absurd (List.cons.inj heq).1 hchar
  next => rfl

theorem unescapeBrackets_cons {char : Char} {rest : Text}
    (hrest : BracketsEscaped rest) :
    unescapeBrackets (char :: rest) = char :: unescapeBrackets rest := by
  apply unescapeBrackets.eq_3
  intro others _ heq
  rw [heq] at hrest
  exact hrest.head_ne rfl

theorem of_cutAtMark {text : Text} (htext : BracketsEscaped text) :
    BracketsEscaped (cutAtMark text).2 ∧
      unescapeBrackets text =
        (cutAtMark text).1 ++ unescapeBrackets (cutAtMark text).2 := by
  induction htext with
  | nil => exact ⟨.nil, rfl⟩
  | bracket hrest _ =>
      simp only [cutAtMark, mark?, Option.isSome_some, if_true]
      exact ⟨.bracket hrest, rfl⟩
  | letter hchar hrest ih =>
      simp only [cutAtMark, mark?_eq_none hchar hrest,
        unescapeBrackets_cons hrest, ih.2]
      exact ⟨ih.1, rfl⟩

theorem of_nextEvent? {text rest : Text} {event : Event}
    (htext : BracketsEscaped text)
    (hnext : nextEvent? text = some (event, rest)) :
    BracketsEscaped rest ∧
      ∃ content, event = .text content ∧
        unescapeBrackets text = content ++ unescapeBrackets rest := by
  rcases nextEvent?_cases hnext with hmark | ⟨-, -, rfl, rfl⟩
  · cases htext with
    | nil => simp [mark?] at hmark
    | bracket hrest =>
        simp only [mark?, Option.some.injEq, Prod.mk.injEq] at hmark
        rw [← hmark.1, ← hmark.2]
        exact ⟨hrest, ['<'], rfl, rfl⟩
    | letter hchar hothers =>
        rw [mark?_eq_none hchar hothers] at hmark
        contradiction
  · exact ⟨htext.of_cutAtMark.1, _, rfl, htext.of_cutAtMark.2⟩

/-- An escaped text holds no tag, and prints its brackets without their
backslashes. -/
theorem literalText_events {text : Text} (htext : BracketsEscaped text)
    (table : StyleTable) :
    (∀ event ∈ events text, ∃ content, event = .text content) ∧
      literalText table (events text) = unescapeBrackets text := by
  induction text using events.induct with
  | case1 text hnone =>
      have hempty := eq_nil_of_nextEvent?_eq_none hnone
      subst text
      simp [literalText, unescapeBrackets]
  | case2 text event rest hnext ih =>
      obtain ⟨hrest, content, rfl, hunescape⟩ := htext.of_nextEvent? hnext
      have hothers := ih hrest
      rw [events_of_nextEvent? hnext, hunescape, ← hothers.2]
      constructor
      · intro other hother
        rcases List.mem_cons.mp hother with rfl | hmem
        · exact ⟨content, rfl⟩
        · exact hothers.1 other hmem
      · rfl

end BracketsEscaped

/-! ## Formatting an escaped text -/

theorem Formatter.style_of_mem_spansOf {formatter : Formatter} {markup : Text}
    (hevents : ∀ event ∈ events markup, ∃ content, event = .text content)
    {span : Span} (hspan : span ∈ formatter.spansOf markup) :
    span.style = .empty := by
  have henter :
      ∀ style,
        .enter style ∈
            Directive.join ((events markup).map (.ofEvent formatter.styles)) →
          False := by
    intro style hstyle
    obtain ⟨event, hevent, hdirective⟩ :=
      List.mem_map.mp (Directive.enter_mem_of_mem_join hstyle)
    obtain ⟨content, rfl⟩ := hevents event hevent
    simp [Directive.ofEvent] at hdirective
  obtain ⟨⟨layers⟩, hcurrent, hlayers⟩ :=
    Directive.style_of_mem_spans (by simp [StyleStack.empty]) henter hspan
  cases layers with
  | nil => exact hcurrent
  | cons layer rest => exact (hlayers layer List.mem_cons_self).elim

/-- Without a width, an escaped text is printed alike by every formatter. -/
theorem Formatter.flow_escapeMarkup {formatter : Formatter}
    (hwidth : formatter.configuration.width = 0) (column : Int64)
    (text : Text) :
    (formatter.flow column (escapeMarkup text)).1 =
      restoreBackslashes (unescapeBrackets text) := by
  have hescaped : BracketsEscaped (escapeMarkup text) :=
    (bracketsEscaped_escapeBrackets text).guarded
  have hevents := hescaped.literalText_events formatter.styles
  have hguard : guardFinalBackslashes (escapeMarkup text) = escapeMarkup text :=
    guardFinalBackslashes_idem _
  have hcodes :
      ∀ span ∈ formatter.spansOf (escapeMarkup text),
        (span.style.codes formatter.configuration.depth).isStyled = false := by
    intro span hspan
    rw [style_of_mem_spansOf hevents.1 hspan]
    exact isStyled_codes_empty _
  have hliteral :
      (formatter.spansOf (escapeMarkup text)).flatMap Span.text =
        unescapeBrackets (escapeMarkup text) := by
    rw [← hevents.2]
    exact Directive.text_join_ofEvent _ _ _
  simp only [flow, render, hguard]
  rw [wrapSpans_zero hwidth rfl hcodes, hliteral, escapeMarkup,
    restoreBackslashes_unescapeBrackets_guard,
    unescapeBrackets_escapeBrackets]

theorem placeholder_not_mem_restoreBackslashes (text : Text) :
    placeholder ∉ restoreBackslashes text := by
  intro hmem
  obtain ⟨char, -, hchar⟩ := List.mem_map.mp hmem
  split at hchar
  · exact absurd hchar (by decide)
  · contradiction

/-- Formatting prints an escaped text with each bracket freed from a backslash
before it and each placeholder made a backslash.  So it prints the text itself
just if the text holds neither an escaped bracket nor a placeholder. -/
theorem formatText_escapeMarkup (text : Text) :
    formatText (escapeMarkup text) 0 =
        restoreBackslashes (unescapeBrackets text) ∧
      (formatText (escapeMarkup text) 0 = text ↔
        ¬ ['\\', '<'] <:+: text ∧ placeholder ∉ text) := by
  have hformat :
      formatText (escapeMarkup text) 0 =
        restoreBackslashes (unescapeBrackets text) :=
    Formatter.flow_escapeMarkup rfl 0 text
  refine ⟨hformat, ?_⟩
  rw [hformat]
  constructor
  · intro hsame
    constructor
    · intro hescape
      have hshorter := length_unescapeBrackets_lt hescape
      have hlength := congrArg List.length hsame
      simp only [restoreBackslashes, List.length_map] at hlength
      omega
    · rw [← hsame]
      exact placeholder_not_mem_restoreBackslashes _
  · rintro ⟨hescape, hplaceholder⟩
    rw [unescapeBrackets_of_no_pair hescape,
      restoreBackslashes_of_not_mem hplaceholder]

/-- A bracket that is escaped in the text loses its backslash, and a
placeholder becomes one. -/
theorem formatText_escapeMarkup_ne :
    formatText (escapeMarkup "\\<".toList) 0 ≠ "\\<".toList ∧
      formatText (escapeMarkup [placeholder]) 0 ≠ [placeholder] := by
  decide +kernel

/-! ## What escaping adds -/

namespace BracketsEscaped

theorem getLast?_eq_of_append {text front back : Text}
    (htext : BracketsEscaped text) (hsplit : text = front ++ '<' :: back) :
    front.getLast? = some '\\' := by
  induction htext generalizing front with
  | nil => simp at hsplit
  | @bracket rest _ ih =>
      match front with
      | [] => simp at hsplit
      | [first] =>
          rw [(List.cons.inj hsplit).1]
          rfl
      | first :: second :: others =>
          have hothers := ih (List.cons.inj (List.cons.inj hsplit).2).2
          rw [List.getLast?_cons, List.getLast?_cons, hothers]
          rfl
  | @letter char rest hchar _ ih =>
      cases front with
      | nil => exact absurd (List.cons.inj hsplit).1 hchar
      | cons first others =>
          have hothers := ih (List.cons.inj hsplit).2
          rw [List.getLast?_cons, hothers]
          rfl

theorem of_not_mem {text : Text} (htext : '<' ∉ text) :
    BracketsEscaped text := by
  induction text with
  | nil => exact .nil
  | cons char rest ih =>
      rw [List.mem_cons, not_or] at htext
      exact .letter (Ne.symm htext.1) (ih htext.2)

theorem escapeBrackets_eq {text : Text} (htext : BracketsEscaped text) :
    escapeBrackets text = text := by
  induction htext with
  | nil => rfl
  | bracket _ ih => rw [escapeBrackets, ih]
  | @letter char rest hchar hrest ih =>
      have hescape : ∀ others, char = '\\' → rest = '<' :: others → False := by
        rintro others - rfl
        exact hrest.head_ne rfl
      rw [escapeBrackets.eq_4 char rest hescape hchar, ih]

end BracketsEscaped

theorem escapeMarkup_idem (text : Text) :
    escapeMarkup (escapeMarkup text) = escapeMarkup text := by
  have hescaped : BracketsEscaped (escapeMarkup text) :=
    (bracketsEscaped_escapeBrackets text).guarded
  rw [escapeMarkup, hescaped.escapeBrackets_eq, escapeMarkup,
    guardFinalBackslashes_idem]

theorem escapeBrackets_append (front : Text) {back : Text}
    (hback : back.head? ≠ some '<') :
    escapeBrackets (front ++ back) =
      escapeBrackets front ++ escapeBrackets back := by
  induction front using escapeBrackets.induct with
  | case1 => rfl
  | case2 rest ih => simp only [List.cons_append, escapeBrackets, ih]
  | case3 rest ih => simp only [List.cons_append, escapeBrackets, ih]
  | case4 char rest hescape hbracket ih =>
      have hjoined :
          ∀ others, char = '\\' → rest ++ back = '<' :: others → False := by
        intro others hchar hsplit
        cases rest with
        | nil => exact hback (congrArg List.head? hsplit)
        | cons next following =>
            exact hescape following hchar (by rw [(List.cons.inj hsplit).1])
      rw [List.cons_append, escapeBrackets.eq_4 char _ hjoined hbracket, ih,
        escapeBrackets.eq_4 char rest hescape hbracket, List.cons_append]

theorem getLast?_escapeBrackets (text : Text) :
    (escapeBrackets text).getLast? = text.getLast? := by
  induction text using escapeBrackets.induct with
  | case1 => rfl
  | case2 rest ih => simp only [escapeBrackets, List.getLast?_cons, ih]
  | case3 rest ih =>
      simp only [escapeBrackets, List.getLast?_cons, ih, Option.getD_some]
  | case4 char rest hescape hbracket ih =>
      rw [escapeBrackets.eq_4 char rest hescape hbracket, List.getLast?_cons,
        List.getLast?_cons, ih]

/-- Brackets are escaped alike before and after the final backslashes are
guarded. -/
theorem escapeMarkup_eq (text : Text) :
    escapeMarkup text = escapeBrackets (guardFinalBackslashes text) := by
  obtain ⟨front, count, hfront, htext, hguard⟩ :=
    exists_guardFinalBackslashes text
  have hrun (char : Char) (hchar : char ≠ '<') :
      escapeBrackets (front ++ List.replicate count char) =
        escapeBrackets front ++ List.replicate count char := by
    have hmem : '<' ∉ List.replicate count char := by
      rw [List.mem_replicate]
      exact fun hmem => hchar hmem.2.symm
    rw [escapeBrackets_append front
        (fun hhead => hmem (List.mem_of_mem_head? hhead)),
      (BracketsEscaped.of_not_mem hmem).escapeBrackets_eq]
  have hlast : (escapeBrackets front).getLast? ≠ some '\\' := by
    rwa [getLast?_escapeBrackets]
  rw [hguard, hrun placeholder (by decide), escapeMarkup, htext,
    hrun '\\' (by decide), guardFinalBackslashes_append_replicate hlast]

theorem sublist_escapeBrackets (text : Text) :
    text.Sublist (escapeBrackets text) := by
  induction text using escapeBrackets.induct with
  | case1 => exact List.Sublist.refl _
  | case2 rest ih =>
      rw [escapeBrackets]
      exact (ih.cons_cons '<').cons_cons '\\'
  | case3 rest ih =>
      rw [escapeBrackets]
      exact (ih.cons_cons '<').cons '\\'
  | case4 char rest hescape hbracket ih =>
      rw [escapeBrackets.eq_4 char rest hescape hbracket]
      exact ih.cons_cons char

theorem filter_escapeBrackets (text : Text) :
    (escapeBrackets text).filter (· != '\\') = text.filter (· != '\\') := by
  induction text using escapeBrackets.induct with
  | case1 => rfl
  | case2 rest ih => simp [escapeBrackets, ih]
  | case3 rest ih => simp [escapeBrackets, ih]
  | case4 char rest hescape hbracket ih =>
      rw [escapeBrackets.eq_4 char rest hescape hbracket, List.filter_cons,
        List.filter_cons, ih]

/-- Every bracket of an escaped text stands right behind a backslash, no
backslash stands at the end, and escaping again changes nothing.  Beside the
text, with its final backslashes exchanged for placeholders, an escaped text
holds only the backslashes before its brackets: it keeps all characters of the
one in their order, it has no others but backslashes, and without the
backslashes before their brackets the two are the same. -/
theorem escapeMarkup_guards (text : Text) :
    (∀ front back, escapeMarkup text = front ++ '<' :: back →
        front.getLast? = some '\\') ∧
      (escapeMarkup text).getLast? ≠ some '\\' ∧
      escapeMarkup (escapeMarkup text) = escapeMarkup text ∧
      ∃ front count,
        text = front ++ List.replicate count '\\' ∧
          front.getLast? ≠ some '\\' ∧
          let guarded := front ++ List.replicate count placeholder
          unescapeBrackets (escapeMarkup text) = unescapeBrackets guarded ∧
            guarded.Sublist (escapeMarkup text) ∧
            (escapeMarkup text).filter (· != '\\') =
              guarded.filter (· != '\\') := by
  have hescaped : BracketsEscaped (escapeMarkup text) :=
    (bracketsEscaped_escapeBrackets text).guarded
  obtain ⟨front, count, hfront, htext, hguard⟩ :=
    exists_guardFinalBackslashes text
  refine
    ⟨fun _ _ => hescaped.getLast?_eq_of_append,
      getLast?_guardFinalBackslashes_ne _, escapeMarkup_idem text,
      front, count, htext, hfront, ?_⟩
  intro guarded
  rw [escapeMarkup_eq, hguard]
  exact
    ⟨unescapeBrackets_escapeBrackets guarded, sublist_escapeBrackets guarded,
      filter_escapeBrackets guarded⟩

/-- One bracket has two backslashes before it, another none, and two backslashes
stand at the end. -/
theorem escapeMarkup_guards_runs :
    let text := "a\\\\<b<c\\\\".toList
    let escaped := "a\\\\<b\\<c".toList ++ [placeholder, placeholder]
    escapeMarkup text = escaped ∧ escapeMarkup escaped = escaped ∧
      escaped = "a\\\\<b\\".toList ++ '<' :: 'c' :: [placeholder, placeholder] ∧
      "a\\\\<b\\".toList.getLast? = some '\\' := by
  intro text escaped
  have hescaped : escapeMarkup text = escaped := by decide
  have hsplit :
      escaped =
        "a\\\\<b\\".toList ++ '<' :: 'c' :: [placeholder, placeholder] := by
    decide
  obtain ⟨hbracket, -, htwice, -⟩ := escapeMarkup_guards text
  rw [hescaped] at hbracket htwice
  exact ⟨hescaped, htwice, hsplit, hbracket _ _ hsplit⟩

/-! ## Escaped texts between tags -/

/-- What stands behind an escaped text is read on its own. -/
theorem BracketsEscaped.joinTexts_events_append {text : Text}
    (htext : BracketsEscaped text) (hlast : text.getLast? ≠ some '\\')
    (after : Text) :
    joinTexts (events (text ++ after)) =
      joinTexts (textEvents (unescapeBrackets text) ++ events after) := by
  induction htext with
  | nil => rfl
  | @bracket rest _ ih =>
      have hmark :
          mark? ('\\' :: '<' :: (rest ++ after)) =
            some (.text ['<'], rest ++ after) := rfl
      have hrest := ih (getLast?_ne_of_append ['\\', '<'] hlast)
      simp only [List.cons_append]
      rw [events_of_mark? hmark, joinTexts_cons, hrest, unescapeBrackets,
        joinTexts_textEvents_cons]
  | @letter char rest hchar hescaped ih =>
      have hmark : mark? (char :: (rest ++ after)) = none := by
        cases rest with
        | nil =>
            -- A backslash here would fall on what stands behind the text.
            have hbackslash : char ≠ '\\' := by
              simpa using hlast
            simp [mark?, hchar, hbackslash]
        | cons next others =>
            exact mark?_eq_none_of_ne hchar
              (fun hescape => hescaped.head_ne hescape.2) _
      have hrest := ih (getLast?_ne_of_append [char] hlast)
      rw [List.cons_append, joinTexts_events_cons hmark, hrest,
        unescapeBrackets_cons hescaped, joinTexts_textEvents_cons]

/-- An escaped text adds its own characters to the events of the markup around
it, and neither adds nor takes a tag. -/
theorem joinTexts_events_escapeMarkup {before : Text}
    (hbefore : before = [] ∨ EndsWithTag before) (text after : Text) :
    let markup := before ++ escapeMarkup text ++ after
    joinTexts (events markup) =
        joinTexts
          (events before ++
            textEvents (unescapeBrackets (escapeMarkup text)) ++
              events after) ∧
      (events markup).filter Event.isTag =
        (events before).filter Event.isTag ++
          (events after).filter Event.isTag := by
  intro markup
  have hevents :
      events markup = events before ++ events (escapeMarkup text ++ after) := by
    simp only [markup, List.append_assoc]
    rcases hbefore with rfl | hbefore
    · simp
    · exact hbefore.events_append _
  have hescaped :
      joinTexts (events (escapeMarkup text ++ after)) =
        joinTexts
          (textEvents (unescapeBrackets (escapeMarkup text)) ++
            events after) :=
    (bracketsEscaped_escapeBrackets text).guarded.joinTexts_events_append
      (getLast?_guardFinalBackslashes_ne _) after
  have hjoined :
      joinTexts (events markup) =
        joinTexts
          (events before ++
            textEvents (unescapeBrackets (escapeMarkup text)) ++
              events after) := by
    rw [hevents, List.append_assoc, joinTexts_append, joinTexts_append,
      hescaped]
  refine ⟨hjoined, ?_⟩
  have htext (content : Text) :
      (textEvents content).filter Event.isTag = [] := by
    unfold textEvents
    split <;> simp [Event.isTag]
  rw [← filter_isTag_joinTexts, hjoined, filter_isTag_joinTexts]
  simp [htext]

/-- Neither the open bracket nor the last backslash of the text meets the
closing tag behind it. -/
theorem joinTexts_events_escapeMarkup_between_tags :
    EndsWithTag "<fg=red>".toList ∧
      joinTexts
          (events
            ("<fg=red>".toList ++ escapeMarkup "a <b\\".toList ++
              "</>".toList)) =
        [.opening "fg=red".toList, .text ("a <b".toList ++ [placeholder]),
          .closing []] := by
  have htag : EndsWithTag "<fg=red>".toList :=
    ⟨.opening "fg=red".toList, by decide +kernel, rfl⟩
  have hjoined :=
    joinTexts_events_escapeMarkup (.inr htag) "a <b\\".toList "</>".toList
  refine ⟨htag, hjoined.1.trans ?_⟩
  decide +kernel

end TerminalMarkup
