import TerminalMarkup.Proofs.WrittenDirectives

/-!
# The style of every printed character

A terminal that reads the output shows the literal characters once each, in
order, in the style of the tags around them.  All else belongs to the layout:
line ends in the initial appearance, and padding in the style of its newline.
-/

namespace TerminalMarkup

def Style.show (style : Style) (depth : ColorDepth) (char : Char) : ShownChar :=
  ⟨char, style.appearance depth⟩

namespace Terminal

/-- If every line leaves the terminal as it was, the lines are shown one after
another. -/
theorem display_intercalate {around : Text → Text}
    {letter : Char → ShownChar} {lines : List Text}
    (hlines :
      ∀ line ∈ lines,
        ({} : Terminal).display (around line) = line.map letter ∧
          ({} : Terminal).after (around line) = {}) :
    ({} : Terminal).display (['\n'].intercalate (lines.map around)) =
        [⟨'\n', {}⟩].intercalate (lines.map (·.map letter)) ∧
      ({} : Terminal).after (['\n'].intercalate (lines.map around)) = {} := by
  induction lines with
  | nil => exact ⟨rfl, rfl⟩
  | cons line rest ih =>
      have hline := hlines line List.mem_cons_self
      have hrest := ih fun other hother =>
        hlines other (List.mem_cons_of_mem _ hother)
      cases rest with
      | nil => simpa using hline
      | cons next others =>
          have hnewline :
              ({} : Terminal).display ['\n'] = [⟨'\n', {}⟩] ∧
                ({} : Terminal).after ['\n'] = {} := ⟨rfl, rfl⟩
          simp only [List.map_cons, List.intercalate_cons_cons] at hrest ⊢
          simp only [display_append, after_append, hline.1, hline.2,
            hnewline.1, hnewline.2, hrest.1, hrest.2, and_self]

theorem display_wrapSpan {style : Style} {depth : ColorDepth} {text : Text}
    (hdepth : depth.emitsCodes = true)
    (hlink : style.LinkAvoids sequenceMarks)
    (htext : text.Avoids sequenceMarks) (width : UInt64) (cursor : Cursor) :
    ({} : Terminal).display
          (wrapSpan width (style.codes depth) cursor text) =
        ((cursor.cells width text).map
          (Cell.fit (style.codes depth).isStyled)).flatMap
            (Cell.written (style.show depth) ⟨'\n', {}⟩) ∧
      ({} : Terminal).after
        (wrapSpan width (style.codes depth) cursor text) = {} := by
  by_cases hempty : text = []
  · subst text
    exact ⟨rfl, rfl⟩
  · rw [wrapSpan_eq_lines width _ cursor hempty,
      ← intercalate_linesOfCells]
    apply display_intercalate
    intro line hline
    apply display_around hdepth hlink
    intro hescape
    rcases mem_line_of_cells hline hescape with hspace | hglyph
    · exact absurd hspace (by decide)
    · rw [filterMap_glyph?_map_fit, Cursor.filterMap_glyph?_cells] at hglyph
      exact htext.not_mem (by decide) (List.mem_filter.mp hglyph).1

end Terminal

namespace Formatter

theorem display_wrapSpans {configuration : Configuration} {spans : List Span}
    (hdepth : configuration.depth.emitsCodes = true)
    (hspans :
      ∀ span ∈ spans,
        span.text.Avoids sequenceMarks ∧
          span.style.LinkAvoids sequenceMarks)
    (cursor : Cursor) :
    ({} : Terminal).display (wrapSpans configuration cursor spans).1 =
        Span.flow configuration.width
          (fun cursor span =>
            (span.cells configuration cursor).flatMap
              (Cell.written (span.style.show configuration.depth)
                ⟨'\n', {}⟩))
          cursor spans ∧
      ({} : Terminal).after (wrapSpans configuration cursor spans).1 = {} := by
  induction spans generalizing cursor with
  | nil => exact ⟨rfl, rfl⟩
  | cons span rest ih =>
      obtain ⟨htext, hlink⟩ := hspans span List.mem_cons_self
      have hfirst :=
        Terminal.display_wrapSpan hdepth hlink htext configuration.width
          cursor
      have hrest :=
        ih (fun other hother => hspans other (List.mem_cons_of_mem _ hother))
          (cursor.after configuration.width span.text)
      simp only [wrapSpans, Span.flow, Terminal.display_append,
        Terminal.after_append, hfirst.1, hfirst.2, hrest.1, hrest.2,
        and_true]
      rfl

/-- What is shown of a marked-up text, cell by cell. -/
theorem display_flow {formatter : Formatter}
    (hdepth : formatter.configuration.depth.emitsCodes = true)
    (column : Int64) {text : Text}
    (htable : formatter.styles.LinksAvoid sequenceMarks)
    (htext : text.Avoids sequenceMarks) :
    ({} : Terminal).display (formatter.flow column text).1 =
        Span.flow formatter.configuration.width
          (fun cursor span =>
            (span.cells formatter.configuration cursor).flatMap
              (Cell.written (span.style.show formatter.configuration.depth)
                ⟨'\n', {}⟩))
          ⟨column, false⟩ (formatter.writtenSpans text) ∧
      ({} : Terminal).after (formatter.flow column text).1 = {} := by
  simp only [flow_eq_wrapSpans]
  apply display_wrapSpans hdepth
  intro span hspan
  exact
    avoids_of_mem_writtenSpans htable htext (by decide) (by decide) hspan

end Formatter

/-! ## Letters on a terminal -/

/-- What a terminal shows of styled letters.  Newlines are no letters of their
own: one may end a line, behind some padding if its style writes any code, or be
absorbed. -/
inductive Prints (depth : ColorDepth) :
    List (Char × Style) → List ShownChar → Prop
  | nil : Prints depth [] []
  | letter {char : Char} {style : Style} {letters : List (Char × Style)}
      {shown : List ShownChar} (hchar : char ≠ '\n')
      (hrest : Prints depth letters shown) :
      Prints depth ((char, style) :: letters) (style.show depth char :: shown)
  | absorbed {style : Style} {letters : List (Char × Style)}
      {shown : List ShownChar} (hrest : Prints depth letters shown) :
      Prints depth (('\n', style) :: letters) shown
  | newline {style : Style} {letters : List (Char × Style)}
      {shown : List ShownChar} (room : Nat)
      (hroom : (style.codes depth).isStyled = false → room = 0)
      (hrest : Prints depth letters shown) :
      Prints depth (('\n', style) :: letters)
        (List.replicate room (style.show depth ' ') ++ ⟨'\n', {}⟩ :: shown)
  | lineBreak {letters : List (Char × Style)} {shown : List ShownChar}
      (hrest : Prints depth letters shown) :
      Prints depth letters (⟨'\n', {}⟩ :: shown)

namespace Prints

variable {depth : ColorDepth}

theorem append {letters others : List (Char × Style)}
    {shown shown' : List ShownChar} (hfirst : Prints depth letters shown)
    (hsecond : Prints depth others shown') :
    Prints depth (letters ++ others) (shown ++ shown') := by
  induction hfirst with
  | nil => exact hsecond
  | letter hchar _ ih => exact .letter hchar ih
  | absorbed _ ih => exact .absorbed ih
  | newline room hroom _ ih =>
      rw [List.append_assoc]
      exact .newline room hroom ih
  | lineBreak _ ih => exact .lineBreak ih

/-- One span: every step of the layout is one of the cases above. -/
theorem layOut (style : Style) (width : Nat) (position : Position)
    (text : Text) :
    Prints depth (text.map (·, style))
      (((position.layOut width text).map
        (Cell.fit (style.codes depth).isStyled)).flatMap
          (Cell.written (style.show depth) ⟨'\n', {}⟩)) := by
  induction text generalizing position with
  | nil => exact .nil
  | cons char rest ih =>
      have hrest := ih (position.next width char)
      simp only [List.map_cons, Position.layOut, List.map_append,
        List.flatMap_append]
      by_cases hnewline : char = '\n'
      · subst char
        by_cases hfilled : position.filled = true
        · simpa [Position.cells, hfilled] using absorbed hrest
        · have hroom :
              (style.codes depth).isStyled = false →
                (if (style.codes depth).isStyled = true then
                  width - position.column else 0) = 0 := by
            intro hstyled
            simp [hstyled]
          simpa [Position.cells, hfilled, Cell.fit, Cell.written] using
            newline _ hroom hrest
      · by_cases hfull : 0 < width ∧ width ≤ position.column + 1
        · simpa [Position.cells, hnewline, hfull, Cell.fit, Cell.written]
            using letter hnewline (lineBreak hrest)
        · simpa [Position.cells, hnewline, hfull, Cell.fit, Cell.written]
            using letter hnewline hrest

theorem span (configuration : Configuration) (cursor : Cursor) (span : Span) :
    Prints configuration.depth span.letters
      ((span.cells configuration cursor).flatMap
        (Cell.written (span.style.show configuration.depth) ⟨'\n', {}⟩)) := by
  unfold Span.letters Span.cells
  by_cases htext : span.text = []
  · rw [htext]
    exact .nil
  · rw [Cursor.cells_of_ne_nil htext]
    have hlayOut :=
      @layOut configuration.depth span.style configuration.width.toNat
        (cursor.position configuration.width) span.text
    unfold spanCells
    split
    · exact lineBreak hlayOut
    · exact hlayOut

theorem spans (configuration : Configuration) (cursor : Cursor)
    (spans : List Span) :
    Prints configuration.depth (spans.flatMap Span.letters)
      (Span.flow configuration.width
        (fun cursor span =>
          (span.cells configuration cursor).flatMap
            (Cell.written (span.style.show configuration.depth) ⟨'\n', {}⟩))
        cursor spans) := by
  induction spans generalizing cursor with
  | nil => exact .nil
  | cons first rest ih =>
      simp only [List.flatMap_cons, Span.flow]
      exact (span configuration cursor first).append (ih _)

end Prints

namespace Formatter

theorem letters_writtenSpans {formatter : Formatter} {text : Text}
    (htable : formatter.styles.LinksAvoid [placeholder])
    (htext : text.Avoids [placeholder]) :
    (formatter.writtenSpans text).flatMap Span.letters =
      styledLiterals formatter.styles .empty (events text) := by
  rw [writtenSpans_eq_spansOf htable htext, spansOf,
    Directive.letters_join_ofEvent]

/-- Every literal character is shown once, in order, and in the style that the
open tags make up at its place; the output ends in the initial state. -/
theorem prints_display_flow (formatter : Formatter)
    (hdepth : formatter.configuration.depth.emitsCodes = true)
    (column : Int64) {text : Text}
    (htable : formatter.styles.LinksAvoid (placeholder :: sequenceMarks))
    (htext : text.Avoids (placeholder :: sequenceMarks)) :
    let written := (formatter.flow column text).1
    Prints formatter.configuration.depth
        (styledLiterals formatter.styles .empty (events text))
        (({} : Terminal).display written) ∧
      ({} : Terminal).after written = {} := by
  intro written
  have hmarks : sequenceMarks ⊆ placeholder :: sequenceMarks :=
    List.subset_cons_self _ _
  have hplaceholder : [placeholder] ⊆ placeholder :: sequenceMarks := by
    decide
  have hdisplay :=
    display_flow hdepth column (htable.of_marks hmarks)
      (htext.of_marks hmarks)
  have hletters :=
    letters_writtenSpans (htable.of_marks hplaceholder)
      (htext.of_marks hplaceholder)
  rw [hdisplay.1, ← hletters]
  exact ⟨Prints.spans _ _ _, hdisplay.2⟩

/-- A named link around a bold text that breaks, and a final backslash. -/
theorem prints_display_flow_home :
    let home : Style := { link := some "https://docs".toList }
    let bold : Style := { effects := .ofList [.bold] }
    let formatter : Formatter :=
      { configuration := Configuration.trueColor.withWidth 4
        styles := StyleTable.empty.insert "home".toList home }
    let text := "<home>a<options=bold>bcd\ne</></>f\\".toList
    let written := (formatter.flow 0 text).1
    Prints .trueColor
        ([('a', home)] ++ "bcd\ne".toList.map (·, home.overlay bold) ++
          "f\\".toList.map (·, .empty))
        (({} : Terminal).display written) ∧
      ({} : Terminal).after written = {} := by
  intro home bold formatter text written
  have hentries :
      ∀ entry ∈ formatter.styles.entries,
        entry.2.LinkAvoids (placeholder :: sequenceMarks) := by
    decide +kernel
  have hprints :=
    @prints_display_flow formatter rfl 0 text
      (StyleTable.linksAvoid_of_entries hentries) (by decide +kernel)
  have hletters :
      styledLiterals formatter.styles .empty (events text) =
        [('a', home)] ++ "bcd\ne".toList.map (·, home.overlay bold) ++
          "f\\".toList.map (·, .empty) := by
    decide +kernel
  rw [hletters] at hprints
  exact hprints

end Formatter

end TerminalMarkup
