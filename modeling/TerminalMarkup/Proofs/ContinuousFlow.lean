import TerminalMarkup.Proofs.PlainFlow
import TerminalMarkup.Proofs.WrittenDirectives

/-!
# Seams of the output

A text may be cut where no style is open, into spans or into calls, without a
change of the output; only the newline behind a line that was just filled is no
longer absorbed.  Elsewhere a cut closes the codes and opens them again.
-/

namespace TerminalMarkup

theorem head?_eq_newline_of_restored {text : Text}
    (hhead : (restoreBackslashes text).head? = some '\n') :
    text.head? = some '\n' := by
  rw [restoreBackslashes_eq_map, List.head?_map,
    Option.map_eq_some_iff] at hhead
  obtain ⟨char, hchar, hrestored⟩ := hhead
  rw [hchar, (restoreChar_eq_newline_iff char).mp hrestored]

theorem Position.layOut_cons_of_ne {char : Char} (hchar : char ≠ '\n')
    (width column : Nat) (filled filled' : Bool) (rest : Text) :
    layOut width ⟨column, filled⟩ (char :: rest) =
        layOut width ⟨column, filled'⟩ (char :: rest) ∧
      after width ⟨column, filled⟩ (char :: rest) =
        after width ⟨column, filled'⟩ (char :: rest) := by
  simp [layOut, after, cells, next, hchar]

/-- Whether a line has just been filled matters to a newline only. -/
theorem Cursor.spanCells_of_ne {char : Char} (hchar : char ≠ '\n')
    (width : UInt64) (column : Int64) (filled filled' : Bool) (rest : Text) :
    spanCells width ⟨column, filled⟩ (char :: rest) =
        spanCells width ⟨column, filled'⟩ (char :: rest) ∧
      after width ⟨column, filled⟩ (char :: rest) =
        after width ⟨column, filled'⟩ (char :: rest) := by
  have hover :
      overflows width ⟨column, filled⟩ = overflows width ⟨column, filled'⟩ :=
    rfl
  have hsame :=
    Position.layOut_cons_of_ne hchar width.toNat column.toNatClampNeg filled
      filled' rest
  rw [after_of_ne_nil (List.cons_ne_nil _ _),
    after_of_ne_nil (List.cons_ne_nil _ _)]
  simp only [spanCells, position, hover]
  split
  · exact ⟨rfl, rfl⟩
  · exact ⟨by rw [hsame.1], by rw [hsame.2]⟩

namespace Formatter

variable {configuration : Configuration}

theorem wrapSpans_filled (configuration : Configuration) {spans : List Span}
    (hnewline : (spans.flatMap Span.text).head? ≠ some '\n')
    (column : Int64) (filled filled' : Bool) :
    (wrapSpans configuration ⟨column, filled⟩ spans).1 =
        (wrapSpans configuration ⟨column, filled'⟩ spans).1 ∧
      (wrapSpans configuration ⟨column, filled⟩ spans).2.column =
        (wrapSpans configuration ⟨column, filled'⟩ spans).2.column := by
  induction spans with
  | nil => exact ⟨rfl, rfl⟩
  | cons span rest ih =>
      obtain ⟨text, style⟩ := span
      cases text with
      | nil =>
          have hrest := ih (by simpa using hnewline)
          exact ⟨hrest.1, hrest.2⟩
      | cons char others =>
          have hchar : char ≠ '\n' := by
            simpa using hnewline
          have hsame :=
            Cursor.spanCells_of_ne hchar configuration.width column filled
              filled' others
          simp only [wrapSpans, wrapSpan, hsame.1, hsame.2, and_self]

/-! ## Spans that are cut -/

theorem wrapSpans_append (cursor : Cursor) (first second : List Span) :
    wrapSpans configuration cursor (first ++ second) =
      let (written, middle) := wrapSpans configuration cursor first
      let (others, last) := wrapSpans configuration middle second
      (written ++ others, last) := by
  induction first generalizing cursor with
  | nil => rfl
  | cons span rest ih => simp [wrapSpans, ih]

theorem wrapSpans_cons_congr {cursor : Cursor} (span : Span)
    {rest rest' : List Span}
    (hrest :
      wrapSpans configuration (cursor.after configuration.width span.text)
          rest =
        wrapSpans configuration (cursor.after configuration.width span.text)
          rest') :
    wrapSpans configuration cursor (span :: rest) =
      wrapSpans configuration cursor (span :: rest') := by
  simp only [wrapSpans, hrest]

/-- A span without codes may be cut anywhere. -/
theorem wrapSpans_cut (hwidth : configuration.width.toNat < 2 ^ 63)
    {style : Style}
    (hcodes : (style.codes configuration.depth).isStyled = false)
    {cursor : Cursor} {first : Text}
    (hbound :
      configuration.width.toNat = 0 →
        cursor.column.toNatClampNeg + first.length < 2 ^ 63)
    (second : Text) (rest : List Span) :
    wrapSpans configuration cursor (⟨first ++ second, style⟩ :: rest) =
      wrapSpans configuration cursor
        (⟨first, style⟩ :: ⟨second, style⟩ :: rest) := by
  simp only [wrapSpans, wrapSpan_of_not_styled hcodes,
    Cursor.cells_append hwidth hbound, Cursor.after_append hwidth hbound,
    plainText_append, List.append_assoc]

/-- Pending text without characters writes nothing. -/
theorem wrapSpans_pending_nil_append (cursor : Cursor) (stack : StyleStack)
    (directives : List Directive) (others : List Span) :
    wrapSpans configuration cursor
        (Directive.spans stack (Directive.cons (.print []) directives) ++
          others) =
      wrapSpans configuration cursor
        (Directive.spans stack directives ++ others) := by
  cases directives with
  | nil => rfl
  | cons directive rest =>
      cases directive with
      | print text => rfl
      | enter style => rfl
      | leave => rfl

theorem wrapSpans_pending_nil (cursor : Cursor) (stack : StyleStack)
    (directives : List Directive) :
    wrapSpans configuration cursor
        (Directive.spans stack (Directive.cons (.print []) directives)) =
      wrapSpans configuration cursor (Directive.spans stack directives) := by
  simpa using wrapSpans_pending_nil_append cursor stack directives []

/-- Pending text in a style without codes may be written apart from what is
printed next. -/
theorem wrapSpans_pending_cut (hwidth : configuration.width.toNat < 2 ^ 63)
    {stack : StyleStack}
    (hcodes : (stack.current.codes configuration.depth).isStyled = false)
    {cursor : Cursor} {pending : Text}
    (hbound :
      configuration.width.toNat = 0 →
        cursor.column.toNatClampNeg + pending.length < 2 ^ 63)
    (directives : List Directive) :
    wrapSpans configuration cursor
        (Directive.spans stack (Directive.cons (.print pending) directives)) =
      wrapSpans configuration cursor
        (⟨pending, stack.current⟩ :: Directive.spans stack directives) := by
  cases directives with
  | nil => rfl
  | cons directive rest =>
      cases directive with
      | print text =>
          exact
            wrapSpans_cut hwidth hcodes hbound text (Directive.spans stack rest)
      | enter style => rfl
      | leave => rfl

theorem wrapSpans_behind_pending {cursor : Cursor} (span : Span)
    {stack : StyleStack} {directives directives' : List Directive}
    {others : List Span}
    (hrest :
      wrapSpans configuration (cursor.after configuration.width span.text)
          (Directive.spans stack (Directive.cons (.print []) directives)) =
        wrapSpans configuration (cursor.after configuration.width span.text)
          (Directive.spans stack (Directive.cons (.print []) directives') ++
            others)) :
    wrapSpans configuration cursor (span :: Directive.spans stack directives) =
      wrapSpans configuration cursor
        (span :: (Directive.spans stack directives' ++ others)) := by
  rw [wrapSpans_pending_nil, wrapSpans_pending_nil_append] at hrest
  exact wrapSpans_cons_congr span hrest

/-- Where the style in force writes no codes, the spans before the place and
those behind it may be joined apart.  Some text may be pending before them. -/
theorem wrapSpans_pending_append
    (hwidth : configuration.width.toNat < 2 ^ 63) {stack : StyleStack}
    {first : List Directive}
    (hseam :
      ((Directive.stackAfter stack first).current.codes
        configuration.depth).isStyled = false)
    {cursor : Cursor} {pending : Text}
    (hbound :
      configuration.width.toNat = 0 →
        cursor.column.toNatClampNeg +
            (pending.length + (first.flatMap Directive.printed).length) <
          2 ^ 63)
    (second : List Directive) :
    wrapSpans configuration cursor
        (Directive.spans stack
          (Directive.cons (.print pending)
            (Directive.join (first ++ second)))) =
      wrapSpans configuration cursor
        (Directive.spans stack
            (Directive.cons (.print pending) (Directive.join first)) ++
          Directive.spans (Directive.stackAfter stack first)
            (Directive.join second)) := by
  -- The pending text grows until the first change of style, or up to the seam.
  induction first generalizing stack cursor pending with
  | nil => exact wrapSpans_pending_cut hwidth hseam hbound _
  | cons directive rest ih =>
      have hsplit :
          Directive.join (directive :: rest ++ second) =
            Directive.cons directive (Directive.join (rest ++ second)) := rfl
      rw [hsplit, Directive.join_cons]
      simp only [List.flatMap_cons, List.length_append] at hbound
      cases directive with
      | print text =>
          rw [Directive.cons_print_cons_print, Directive.cons_print_cons_print]
          apply ih hseam
          simpa only [Directive.printed, List.length_append,
            Nat.add_assoc] using hbound
      | enter style =>
          have hrest := ih hseam (Cursor.bounds_of_add hwidth hbound).2
          have hspan :=
            wrapSpans_behind_pending ⟨pending, stack.current⟩ hrest
          exact hspan
      | leave =>
          have hrest := ih hseam (Cursor.bounds_of_add hwidth hbound).2
          have hspan :=
            wrapSpans_behind_pending ⟨pending, stack.current⟩ hrest
          exact hspan

theorem wrapSpans_join_append
    (hwidth : configuration.width.toNat < 2 ^ 63) {stack : StyleStack}
    {first : List Directive}
    (hseam :
      ((Directive.stackAfter stack first).current.codes
        configuration.depth).isStyled = false)
    {cursor : Cursor}
    (hbound :
      configuration.width.toNat = 0 →
        cursor.column.toNatClampNeg +
          (first.flatMap Directive.printed).length < 2 ^ 63)
    (second : List Directive) :
    wrapSpans configuration cursor
        (Directive.spans stack (Directive.join (first ++ second))) =
      wrapSpans configuration cursor
        (Directive.spans stack (Directive.join first) ++
          Directive.spans (Directive.stackAfter stack first)
            (Directive.join second)) := by
  have hnone :
      configuration.width.toNat = 0 →
        cursor.column.toNatClampNeg +
            (([] : Text).length + (first.flatMap Directive.printed).length) <
          2 ^ 63 := by
    simpa using hbound
  have hpending := wrapSpans_pending_append hwidth hseam hnone second
  rwa [wrapSpans_pending_nil, wrapSpans_pending_nil_append] at hpending

/-! ## Two calls -/

theorem join_directives_append {formatter : Formatter} {first second : Text}
    (hevents :
      joinTexts (events (first ++ second)) =
        joinTexts (events first ++ events second)) :
    Directive.join (formatter.directives (first ++ second)) =
      Directive.join
        (formatter.directives first ++ formatter.directives second) := by
  unfold directives
  rw [← formatter.styles.join_map_written_joinTexts, hevents,
    formatter.styles.join_map_written_joinTexts, List.map_append]

theorem length_printed_directives_le (formatter : Formatter) (text : Text) :
    ((formatter.directives text).flatMap Directive.printed).length ≤
      text.length := by
  rw [flatMap_printed_directives, restoreBackslashes_eq_map, List.length_map]
  exact (literalText_events_sublist _ _).length_le

/-- Behind a text that leaves no style open, directives are written as if no text
were pending. -/
theorem wrapSpans_directives_append {formatter : Formatter}
    (hwidth : formatter.configuration.width.toNat < 2 ^ 63)
    (cursor : Cursor) {first : Text}
    (hbound : cursor.column.toNatClampNeg + first.length < 2 ^ 63)
    (hopen : formatter.openStyles first = .empty) (second : List Directive) :
    wrapSpans formatter.configuration cursor
        (Directive.spans .empty
          (Directive.join (formatter.directives first ++ second))) =
      wrapSpans formatter.configuration cursor
        (formatter.writtenSpans first ++
          Directive.spans .empty (Directive.join second)) := by
  have hstack :
      Directive.stackAfter .empty (formatter.directives first) = .empty := by
    rw [stackAfter_directives, hopen]
    rfl
  have hlength := formatter.length_printed_directives_le first
  have hseam :
      ((Directive.stackAfter .empty (formatter.directives first)).current.codes
        formatter.configuration.depth).isStyled = false := by
    rw [hstack]
    exact isStyled_codes_empty _
  have hprinted :
      formatter.configuration.width.toNat = 0 →
        cursor.column.toNatClampNeg +
          ((formatter.directives first).flatMap Directive.printed).length <
            2 ^ 63 := by
    intro _
    omega
  rw [wrapSpans_join_append hwidth hseam hprinted second, hstack,
    writtenSpans_eq]

/-- The written spans of two texts, if no style is open between them. -/
theorem wrapSpans_writtenSpans_append {formatter : Formatter}
    (hwidth : formatter.configuration.width.toNat < 2 ^ 63)
    (cursor : Cursor) {first second : Text}
    (hbound : cursor.column.toNatClampNeg + first.length < 2 ^ 63)
    (hevents :
      joinTexts (events (first ++ second)) =
        joinTexts (events first ++ events second))
    (hopen : formatter.openStyles first = .empty) :
    wrapSpans formatter.configuration cursor
        (formatter.writtenSpans (first ++ second)) =
      wrapSpans formatter.configuration cursor
        (formatter.writtenSpans first ++ formatter.writtenSpans second) := by
  rw [formatter.writtenSpans_eq (first ++ second),
    join_directives_append hevents,
    wrapSpans_directives_append hwidth cursor hbound hopen,
    formatter.writtenSpans_eq second]

/-- A text may be formatted in two calls, cut where no style is open, unless a
newline follows the cut. -/
theorem flow_append {formatter : Formatter}
    (hwidth : formatter.configuration.width.toNat < 2 ^ 63)
    {column : Int64} {first second : Text}
    (hbound : column.toNatClampNeg + (first ++ second).length < 2 ^ 63)
    (hevents :
      joinTexts (events (first ++ second)) =
        joinTexts (events first ++ events second))
    (hopen : formatter.openStyles first = .empty)
    (hnewline :
      (literalText formatter.styles (events second)).head? ≠ some '\n') :
    formatter.flow column (first ++ second) =
      let (written, middle) := formatter.flow column first
      let (others, last) := formatter.flow middle second
      (written ++ others, last) := by
  have hfirst : column.toNatClampNeg + first.length < 2 ^ 63 := by
    rw [List.length_append] at hbound
    omega
  have hspans :=
    wrapSpans_writtenSpans_append hwidth ⟨column, false⟩ hfirst hevents hopen
  have hliteral :
      ((formatter.writtenSpans second).flatMap Span.text).head? ≠
        some '\n' := by
    rw [writtenSpans_eq, Directive.flatMap_text_spans,
      Directive.flatMap_printed_join, flatMap_printed_directives]
    exact fun hhead => hnewline (head?_eq_newline_of_restored hhead)
  simp only [flow_eq_wrapSpans, hspans, wrapSpans_append]
  obtain ⟨written, ⟨middle, filled⟩⟩ :=
    wrapSpans formatter.configuration ⟨column, false⟩
      (formatter.writtenSpans first)
  have hcarry :=
    wrapSpans_filled formatter.configuration hliteral middle filled false
  simp only [hcarry.1, hcarry.2]

/-- The cut follows a backslash that fills its line. -/
theorem flow_append_final_backslash :
    let formatter : Formatter :=
      { configuration := Configuration.basic.withWidth 4 }
    let first := "<bg=blue>abc</>\\".toList
    let second := "de\nf".toList
    joinTexts (events (first ++ second)) =
        joinTexts (events first ++ events second) ∧
      formatter.openStyles first = .empty ∧
      (literalText formatter.styles (events second)).head? ≠ some '\n' ∧
      formatter.flow 0 (first ++ second) =
        ((formatter.flow 0 first).1 ++ (formatter.flow 0 second).1, 1) := by
  intro formatter first second
  have hevents :
      joinTexts (events (first ++ second)) =
        joinTexts (events first ++ events second) := by
    decide +kernel
  have hopen : formatter.openStyles first = .empty := by
    decide +kernel
  have hnewline :
      (literalText formatter.styles (events second)).head? ≠ some '\n' := by
    decide +kernel
  have hflow :=
    @flow_append formatter (by decide) 0 first second (by decide) hevents hopen
      hnewline
  have hmiddle : (formatter.flow 0 first).2 = 0 := by
    decide +kernel
  have hlast : (formatter.flow 0 second).2 = 1 := by
    decide +kernel
  simp only [hmiddle, hlast] at hflow
  exact ⟨hevents, hopen, hnewline, hflow⟩

end Formatter

/-! ## Writing in two parts -/

theorem linesOfCells_append (padded : Bool) (first second : List Cell) :
    ∃ front last head back,
      linesOfCells padded first = front ++ [last] ∧
        linesOfCells padded second = head :: back ∧
        linesOfCells padded (first ++ second) =
          front ++ (last ++ head) :: back := by
  induction first with
  | nil =>
      obtain ⟨head, back, hsecond⟩ :=
        List.exists_cons_of_ne_nil (linesOfCells_ne_nil padded second)
      exact ⟨[], [], head, back, rfl, hsecond, hsecond⟩
  | cons cell rest ih =>
      obtain ⟨front, last, head, back, hrest, hsecond, hjoined⟩ := ih
      cases cell with
      | glyph char =>
          -- The character goes on the first line, which may be the last as well.
          cases front with
          | nil =>
              refine ⟨[], char :: last, head, back, ?_, hsecond, ?_⟩
              · simp [linesOfCells, hrest]
              · simp [linesOfCells, hjoined]
          | cons line others =>
              refine ⟨(char :: line) :: others, last, head, back, ?_, hsecond,
                ?_⟩
              · simp [linesOfCells, hrest]
              · simp [linesOfCells, hjoined]
      | fullBreak =>
          refine ⟨[] :: front, last, head, back, ?_, hsecond, ?_⟩
          · simp [linesOfCells, hrest]
          · simp [linesOfCells, hjoined]
      | hardBreak room =>
          refine ⟨(if padded then List.replicate room ' ' else []) :: front,
            last, head, back, ?_, hsecond, ?_⟩
          · simp [linesOfCells, hrest]
          · simp [linesOfCells, hjoined]

theorem intercalate_append_cons (mark : Char) (front : List Text)
    (line : Text) (back : List Text) :
    [mark].intercalate (front ++ line :: back) =
      front.flatMap (· ++ [mark]) ++ line ++ back.flatMap (mark :: ·) := by
  induction front with
  | nil =>
      induction back generalizing line with
      | nil => simp
      | cons next rest ih =>
          have hrest := ih next
          simp only [List.nil_append, List.flatMap_nil] at hrest ⊢
          rw [List.intercalate_cons_cons, hrest]
          simp
  | cons first rest ih =>
      rw [List.cons_append, List.intercalate_cons_of_ne_nil (by simp), ih]
      simp

/-- Cells that are written in two parts cost at most one pair of codes, which is
closed and opened where the parts meet. -/
theorem writeLines_append (codes : Codes) (first second : List Cell) :
    let joined := writeLines codes (first ++ second)
    writeLines codes first ++ writeLines codes second = joined ∨
      ∃ before behind,
        writeLines codes first = before ++ codes.closing ∧
          writeLines codes second = codes.opening ++ behind ∧
          before ++ behind = joined := by
  intro joined
  obtain ⟨front, last, head, back, hfirst, hsecond, hjoined⟩ :=
    linesOfCells_append codes.isStyled first second
  let linesBefore := (front.map codes.around).flatMap (· ++ ['\n'])
  let linesBehind := (back.map codes.around).flatMap ('\n' :: ·)
  have hwritten :
      writeLines codes first = linesBefore ++ codes.around last := by
    rw [writeLines, hfirst, List.map_append, List.map_singleton,
      intercalate_append_cons]
    simp [linesBefore]
  have hothers :
      writeLines codes second = codes.around head ++ linesBehind := by
    rw [writeLines, hsecond, List.map_cons]
    simpa [linesBehind] using
      intercalate_append_cons '\n' [] (codes.around head)
        (back.map codes.around)
  have hwhole :
      joined = linesBefore ++ codes.around (last ++ head) ++ linesBehind := by
    simp only [joined]
    rw [writeLines, hjoined, List.map_append, List.map_cons,
      intercalate_append_cons]
  by_cases hlast : last = []
  · left
    simp [hwritten, hothers, hwhole, hlast, Codes.around]
  · by_cases hhead : head = []
    · left
      simp [hwritten, hothers, hwhole, hhead, Codes.around]
    · right
      refine ⟨linesBefore ++ codes.opening ++ last,
        head ++ codes.closing ++ linesBehind, ?_, ?_, ?_⟩
      · simp [hwritten, hlast, Codes.around]
      · simp [hothers, hhead, Codes.around]
      · simp [hwhole, hlast, Codes.around]

/-- The last character of a text has completed a line: it is no newline, and
still what is written of the text ends with a break. -/
def CompletesLine (text written : Text) : Prop :=
  text.getLast? ≠ some '\n' ∧ written.getLast? = some '\n'

instance (text written : Text) : Decidable (CompletesLine text written) :=
  inferInstanceAs (Decidable (_ ∧ _))

namespace Position

theorem column_next_of_filled {width : Nat} {position : Position} {char : Char}
    (hfilled : (position.next width char).filled = true) :
    (position.next width char).column = 0 := by
  unfold next at hfilled ⊢
  split
  next hnewline =>
    split
    next hwas => simp [hnewline, hwas] at hfilled
    next => rfl
  next hletter =>
    split
    next => rfl
    next hroom => simp [hletter, hroom] at hfilled

theorem filled_next_iff (width : Nat) (position : Position) (char : Char)
    (before : Text) :
    (position.next width char).filled = true ↔
      char ≠ '\n' ∧
        (before ++ plainText (position.cells width char)).getLast? =
          some '\n' := by
  by_cases hnewline : char = '\n'
  · by_cases hfilled : position.filled = true
    · simp [next, hnewline, hfilled]
    · simp [next, hnewline, hfilled]
  · by_cases hfull : 0 < width ∧ width ≤ position.column + 1
    · simp [next, cells, hnewline, hfull]
    · simp [next, cells, hnewline, hfull]

end Position

namespace Cursor

variable {cursor : Cursor}

theorem filled_after_iff {codes : Codes} (hcodes : codes.isStyled = false)
    (hstart : cursor.filled = false) (width : UInt64) (text : Text) :
    (cursor.after width text).filled = true ↔
      CompletesLine text (wrapSpan width codes cursor text) := by
  rw [wrapSpan_of_not_styled hcodes]
  rcases List.eq_nil_or_concat text with rfl | ⟨front, char, rfl⟩
  · simp [CompletesLine, hstart]
  · rw [List.concat_eq_append]
    have htext : front ++ [char] ≠ [] := by simp
    let last := (cursor.position width).after width.toNat front
    have hafter :
        (cursor.after width (front ++ [char])).filled =
          (last.next width.toNat char).filled := by
      rw [after_of_ne_nil htext, Position.after_append]
      rfl
    have hcells :
        cursor.cells width (front ++ [char]) =
          spanCells width cursor front ++ last.cells width.toNat char := by
      rw [cells_of_ne_nil htext, spanCells, spanCells, Position.layOut_append]
      simp [Position.layOut, last]
    rw [hafter, hcells, plainText_append, CompletesLine, List.getLast?_concat]
    simpa using
      last.filled_next_iff width.toNat char
        (plainText (spanCells width cursor front))

theorem column_after_of_filled (hstart : cursor.filled = false)
    {width : UInt64} {text : Text}
    (hfilled : (cursor.after width text).filled = true) :
    (cursor.after width text).column = 0 := by
  rcases List.eq_nil_or_concat text with rfl | ⟨front, char, rfl⟩
  · simp [hstart] at hfilled
  · rw [List.concat_eq_append] at hfilled ⊢
    rw [after_of_ne_nil (by simp), Position.after_append] at hfilled ⊢
    exact congrArg Int64.ofNat (Position.column_next_of_filled hfilled)

/-! ## A full line that is forgotten -/

theorem cells_newline_after_break {width : UInt64}
    (hwidth : width.toNat < 2 ^ 63) (rest : Text) :
    cells width ⟨0, false⟩ ('\n' :: rest) =
        .hardBreak width.toNat :: cells width ⟨0, true⟩ ('\n' :: rest) ∧
      after width ⟨0, false⟩ ('\n' :: rest) =
        after width ⟨0, true⟩ ('\n' :: rest) := by
  have hfits (filled : Bool) : overflows width ⟨0, filled⟩ = false := by
    have hcolumn : (⟨0, filled⟩ : Cursor).column.toInt = 0 := rfl
    rw [Bool.eq_false_iff, ne_eq, overflows_iff hwidth, hcolumn]
    omega
  have htext : '\n' :: rest ≠ [] := List.cons_ne_nil _ _
  rw [cells_of_ne_nil htext, cells_of_ne_nil htext, after_of_ne_nil htext,
    after_of_ne_nil htext, spanCells_of_fits (hfits false),
    spanCells_of_fits (hfits true), position_of_fits (hfits false),
    position_of_fits (hfits true)]
  exact ⟨rfl, rfl⟩

theorem cells_of_head?_ne {text : Text} (hhead : text.head? ≠ some '\n')
    (width : UInt64) (column : Int64) (filled filled' : Bool) :
    cells width ⟨column, filled⟩ text = cells width ⟨column, filled'⟩ text ∧
      (after width ⟨column, filled⟩ text).column =
        (after width ⟨column, filled'⟩ text).column := by
  cases text with
  | nil => exact ⟨rfl, rfl⟩
  | cons char rest =>
      have hchar : char ≠ '\n' := by
        simpa using hhead
      have htext : char :: rest ≠ [] := List.cons_ne_nil _ _
      have hsame := spanCells_of_ne hchar width column filled filled' rest
      rw [cells_of_ne_nil htext, cells_of_ne_nil htext]
      exact ⟨hsame.1, by rw [hsame.2]⟩

/-- If it is forgotten that a line has just been filled, a newline is written
that would have been absorbed, and nothing else changes. -/
theorem cells_of_forgotten {width : UInt64} (hwidth : width.toNat < 2 ^ 63)
    (hfilled : cursor.filled = true → cursor.column = 0) (text : Text) :
    let forgetful : Cursor := ⟨cursor.column, false⟩
    let absorbed := cursor.filled = true ∧ text.head? = some '\n'
    (forgetful.after width text).column = (cursor.after width text).column ∧
      (absorbed →
        forgetful.cells width text =
          .hardBreak width.toNat :: cursor.cells width text) ∧
      (¬absorbed → forgetful.cells width text = cursor.cells width text) := by
  intro forgetful absorbed
  obtain ⟨column, filled⟩ := cursor
  by_cases hnewline : text.head? = some '\n'
  · obtain ⟨rest, rfl⟩ := List.head?_eq_some_iff.mp hnewline
    cases filled with
    | true =>
        have hcolumn : column = 0 := hfilled rfl
        subst column
        have hbreak := cells_newline_after_break hwidth rest
        exact
          ⟨congrArg Cursor.column hbreak.2, fun _ => hbreak.1,
            fun hkept => absurd ⟨rfl, rfl⟩ hkept⟩
    | false =>
        exact
          ⟨rfl, fun habsorbed => absurd habsorbed.1 Bool.false_ne_true,
            fun _ => rfl⟩
  · have hsame := cells_of_head?_ne hnewline width column false filled
    exact
      ⟨hsame.2, fun habsorbed => absurd habsorbed.2 hnewline,
        fun _ => hsame.1⟩

end Cursor

/-! ## Wrapping in two parts -/

/-- Two runs that share the column only, on texts without codes. -/
theorem wrap_append_of_not_styled {width : UInt64}
    (hwidth : width.toNat < 2 ^ 63) {style : Style} {depth : ColorDepth}
    (hcodes : (style.codes depth).isStyled = false) {column : Int64}
    {first : Text}
    (hbound :
      width.toNat = 0 → column.toNatClampNeg + first.length < 2 ^ 63)
    (second : Text) :
    let front := wrap width depth style column first
    let back := wrap width depth style front.2 second
    let whole := wrap width depth style column (first ++ second)
    let missed := CompletesLine first front.1 ∧ second.head? = some '\n'
    back.2 = whole.2 ∧
      (missed → ∃ rest, back.1 = '\n' :: rest ∧ front.1 ++ rest = whole.1) ∧
      (¬missed → front.1 ++ back.1 = whole.1) := by
  let start : Cursor := ⟨column, false⟩
  let middle : Cursor := start.after width first
  have hstart : start.filled = false := rfl
  have hlimit :
      width.toNat = 0 →
        start.column.toNatClampNeg + first.length < 2 ^ 63 := hbound
  have hmiddle : middle.filled = true → middle.column = 0 :=
    Cursor.column_after_of_filled hstart
  have hfilled := Cursor.filled_after_iff hcodes hstart width first
  have hforgotten := Cursor.cells_of_forgotten hwidth hmiddle second
  simp only [wrap, wrapSpan_of_not_styled hcodes] at hfilled ⊢
  rw [← hfilled, Cursor.after_append hwidth hlimit,
    Cursor.cells_append hwidth hlimit, plainText_append]
  refine ⟨hforgotten.1, ?_, ?_⟩
  · intro hmissed
    refine ⟨plainText (middle.cells width second), ?_, rfl⟩
    rw [hforgotten.2.1 hmissed, plainText_hardBreak]
  · intro hmissed
    rw [hforgotten.2.2 hmissed]

/-- A text that is wrapped in two parts ends at the same cursor, and its output
is that of the whole text but for codes that are closed and opened at the seam.
Without codes the runs need share the column only, and then the output is the
same unless a newline follows a line that was just completed; that newline is
written in addition. -/
theorem wrapSpan_append_seam {width : UInt64} (hwidth : width.toNat < 2 ^ 63)
    (style : Style) (depth : ColorDepth) (cursor : Cursor)
    (first second : Text)
    (hbound :
      cursor.column.toNatClampNeg + (first ++ second).length < 2 ^ 63) :
    let codes := style.codes depth
    let middle := cursor.after width first
    let written := wrapSpan width codes cursor first
    let others := wrapSpan width codes middle second
    let joined := wrapSpan width codes cursor (first ++ second)
    middle.after width second = cursor.after width (first ++ second) ∧
      (written ++ others = joined ∨
        ∃ before behind,
          written = before ++ codes.closing ∧
            others = codes.opening ++ behind ∧ before ++ behind = joined) ∧
      (codes.isStyled = false →
        let front := wrap width depth style cursor.column first
        let back := wrap width depth style front.2 second
        let whole := wrap width depth style cursor.column (first ++ second)
        let missed := CompletesLine first front.1 ∧ second.head? = some '\n'
        back.2 = whole.2 ∧
          (missed →
            ∃ rest, back.1 = '\n' :: rest ∧ front.1 ++ rest = whole.1) ∧
          (¬missed → front.1 ++ back.1 = whole.1)) := by
  intro codes middle written others joined
  have hlimit :
      width.toNat = 0 →
        cursor.column.toNatClampNeg + first.length < 2 ^ 63 := by
    intro _
    rw [List.length_append] at hbound
    omega
  refine ⟨(Cursor.after_append hwidth hlimit second).symm, ?_, ?_⟩
  · simp only [written, others, joined, wrapSpan_eq_writeLines]
    rw [Cursor.cells_append hwidth hlimit]
    exact writeLines_append codes _ _
  · intro hcodes
    exact wrap_append_of_not_styled hwidth hcodes hlimit second

/-- A cut behind a full line, in front of a newline. -/
theorem wrapSpan_append_seam_full_line :
    let first := "abcd".toList
    let second := "\nef".toList
    (0 : Int64).toNatClampNeg + (first ++ second).length < 2 ^ 63 ∧
      wrap 4 .basic .empty 0 first = ("abcd\n".toList, 0) ∧
      wrap 4 .basic .empty 0 second = ("\nef".toList, 2) ∧
      ∃ rest,
        "\nef".toList = '\n' :: rest ∧
          "abcd\n".toList ++ rest =
            (wrap 4 .basic .empty 0 (first ++ second)).1 := by
  intro first second
  have hbound :
      (⟨0, false⟩ : Cursor).column.toNatClampNeg + (first ++ second).length <
        2 ^ 63 := by
    decide
  have hfirst : wrap 4 .basic .empty 0 first = ("abcd\n".toList, 0) := by
    decide +kernel
  have hsecond : wrap 4 .basic .empty 0 second = ("\nef".toList, 2) := by
    decide +kernel
  have hseam :=
    (wrapSpan_append_seam (by decide : (4 : UInt64).toNat < 2 ^ 63) .empty
      .basic ⟨0, false⟩ first second hbound).2.2 (by decide)
  simp only [hfirst, hsecond] at hseam
  refine ⟨hbound, hfirst, hsecond, hseam.2.1 ?_⟩
  exact ⟨by decide, by decide⟩

end TerminalMarkup
