import Mathlib.Data.List.DropRight
import TerminalMarkup.Proofs.DepthIndependence

/-!
# The column as the cursor of the terminal

A column that starts at zero counts the characters behind the last newline that
the terminal shows, and no line grows beyond the width.  This goes through the
characters of a text, its spans, one call, and all calls.
-/

namespace TerminalMarkup

/-- The lines of cells are no longer than the width, when the first line starts
at some column. -/
def LinesFit (width : Nat) : Nat → List Cell → Prop
  | column, [] => column ≤ width
  | column, .glyph _ :: rest => LinesFit width (column + 1) rest
  | column, .fullBreak :: rest => column ≤ width ∧ LinesFit width 0 rest
  | column, .hardBreak room :: rest =>
      column + room ≤ width ∧ LinesFit width 0 rest

theorem linesFit_append {width column : Nat} {first second : List Cell}
    (hfirst : LinesFit width column first)
    (hsecond : LinesFit width (first.foldl Cell.columnAfter column) second) :
    LinesFit width column (first ++ second) := by
  induction first generalizing column with
  | nil => exact hsecond
  | cons cell rest ih =>
      cases cell with
      | glyph char => exact ih hfirst hsecond
      | fullBreak => exact ⟨hfirst.1, ih hfirst.2 hsecond⟩
      | hardBreak room => exact ⟨hfirst.1, ih hfirst.2 hsecond⟩

theorem LinesFit.lines {width column : Nat} {cells : List Cell}
    (hfit : LinesFit width column cells) :
    ∃ first others,
      linesOfCells true cells = first :: others ∧
        column + first.length ≤ width ∧
        ∀ line ∈ others, line.length ≤ width := by
  induction cells generalizing column with
  | nil => exact ⟨[], [], rfl, hfit, by simp⟩
  | cons cell rest ih =>
      cases cell with
      | glyph char =>
          obtain ⟨first, others, hlines, hfirst, hothers⟩ := ih hfit
          refine ⟨char :: first, others, ?_, ?_, hothers⟩
          · simp [linesOfCells, hlines]
          · rw [List.length_cons]
            omega
      | fullBreak =>
          obtain ⟨first, others, hlines, hfirst, hothers⟩ := ih hfit.2
          refine ⟨[], first :: others, ?_, hfit.1, ?_⟩
          · simp [linesOfCells, hlines]
          · simpa using ⟨by omega, hothers⟩
      | hardBreak room =>
          obtain ⟨first, others, hlines, hfirst, hothers⟩ := ih hfit.2
          refine ⟨List.replicate room ' ', first :: others, ?_, ?_, ?_⟩
          · simp [linesOfCells, hlines]
          · simpa using hfit.1
          · simpa using ⟨by omega, hothers⟩

/-- The number of characters behind the last newline. -/
def Text.lastColumn (text : Text) : Nat :=
  (text.rtakeWhile (· ≠ '\n')).length

def columnAfterChar (column : Nat) (char : Char) : Nat :=
  if char = '\n' then 0 else column + 1

theorem Text.lastColumn_eq_foldl (text : Text) :
    text.lastColumn = text.foldl columnAfterChar 0 := by
  induction text using List.reverseRecOn with
  | nil => rfl
  | append_singleton front char ih =>
      rw [List.foldl_append, ← ih]
      by_cases hchar : char = '\n'
      · simp [lastColumn, columnAfterChar, hchar]
      · simp [lastColumn, columnAfterChar, hchar]

/-- The column along the cells is the column along the characters that they
write. -/
theorem foldl_columnAfterChar_written {cells : List Cell}
    (hglyph : '\n' ∉ cells.filterMap Cell.glyph?) (column : Nat) :
    (cells.flatMap (Cell.written id '\n')).foldl columnAfterChar column =
      cells.foldl Cell.columnAfter column := by
  induction cells generalizing column with
  | nil => rfl
  | cons cell rest ih =>
      have hrest : '\n' ∉ rest.filterMap Cell.glyph? := by
        intro hmem
        apply hglyph
        cases cell with
        | glyph char => exact List.mem_cons_of_mem _ hmem
        | fullBreak => exact hmem
        | hardBreak room => exact hmem
      have hcell :
          (cell.written id '\n').foldl columnAfterChar column =
            cell.columnAfter column := by
        cases cell with
        | glyph char =>
            simp only [List.filterMap_cons, Cell.glyph?, List.mem_cons,
              not_or] at hglyph
            have hchar : char ≠ '\n' := fun heq => hglyph.1 heq.symm
            simp [Cell.written, Cell.columnAfter, columnAfterChar, hchar]
        | fullBreak => rfl
        | hardBreak room =>
            simp [Cell.written, Cell.columnAfter, columnAfterChar]
      rw [List.flatMap_cons, List.foldl_append, hcell, ih hrest,
        List.foldl_cons]

theorem foldl_columnAfter_le (column : Nat) (cells : List Cell) :
    cells.foldl Cell.columnAfter column ≤
      column + (cells.flatMap (Cell.written id '\n')).length := by
  induction cells generalizing column with
  | nil => simp
  | cons cell rest ih =>
      have hrest := ih (cell.columnAfter column)
      have hcell :
          cell.columnAfter column ≤
            column + (cell.written id '\n').length := by
        cases cell <;> simp [Cell.columnAfter, Cell.written]
      simp only [List.foldl_cons, List.flatMap_cons, List.length_append]
      omega

/-! ## One text at a cursor -/

namespace Position

theorem linesFit_cells {width : Nat} {position : Position}
    (hcolumn : position.column < width) (char : Char) (padded : Bool) :
    LinesFit width position.column
      ((position.cells width char).map (Cell.fit padded)) := by
  by_cases hnewline : char = '\n'
  · by_cases hfilled : position.filled = true
    · simp only [cells, hnewline, hfilled, if_true, List.map_nil, LinesFit]
      omega
    · simp only [cells, hnewline, hfilled, if_true, Bool.false_eq_true,
        if_false, List.map_cons, List.map_nil, Cell.fit, LinesFit]
      split <;> omega
  · by_cases hfull : 0 < width ∧ width ≤ position.column + 1
    · simp only [cells, hnewline, hfull, if_false, and_self, if_true,
        List.map_cons, List.map_nil, Cell.fit, LinesFit]
      omega
    · simp only [cells, hnewline, hfull, if_false, List.map_cons,
        List.map_nil, Cell.fit, LinesFit]
      omega

theorem linesFit_layOut {width : Nat} (position : Position)
    (hcolumn : position.column < width) (text : Text) (padded : Bool) :
    LinesFit width position.column
      ((position.layOut width text).map (Cell.fit padded)) := by
  induction text generalizing position with
  | nil => exact Nat.le_of_lt hcolumn
  | cons char rest ih =>
      have hnext := (breaksLeaveRest_cells width position char).2
      simp only [layOut, List.map_append]
      apply linesFit_append (linesFit_cells hcolumn char padded)
      rw [foldl_columnAfter_map_fit, hnext]
      exact ih _ (next_column_lt hcolumn char)

end Position

/-- The column lies on a line of the width, with room for a character. -/
def ColumnWithin (width : UInt64) (column : Int64) : Prop :=
  0 ≤ column.toInt ∧ (0 < width.toNat → column.toInt < width.toNat)

namespace ColumnWithin

theorem toNatClampNeg_eq {width : UInt64} {column : Int64}
    (hwithin : ColumnWithin width column) :
    column.toInt = column.toNatClampNeg := by
  have hclamp : column.toInt.toNat = column.toNatClampNeg :=
    Int64.toNat_toInt column
  have hstart := hwithin.1
  omega

theorem toNatClampNeg_lt {width : UInt64} {column : Int64}
    (hwithin : ColumnWithin width column) (hpositive : 0 < width.toNat) :
    column.toNatClampNeg < width.toNat := by
  have hless := hwithin.2 hpositive
  have hclamp := hwithin.toNatClampNeg_eq
  omega

end ColumnWithin

namespace Cursor

theorem columnWithin_after {width : UInt64} (hwidth : width.toNat < 2 ^ 63)
    {cursor : Cursor} (hwithin : ColumnWithin width cursor.column)
    {text : Text}
    (hbound :
      width.toNat = 0 →
        cursor.column.toNatClampNeg + text.length < 2 ^ 63) :
    ColumnWithin width (cursor.after width text).column := by
  by_cases htext : text = []
  · subst text
    exact hwithin
  · have hposition := after_position_bounds hwidth hbound
    rw [after_of_ne_nil htext, ofPosition, ColumnWithin,
      Int64.toInt_ofNat_of_lt hposition.1]
    exact ⟨by omega, fun hpositive => by have := hposition.2 hpositive; omega⟩

theorem linesFit_cells {width : UInt64} (hwidth : width.toNat < 2 ^ 63)
    (hpositive : 0 < width.toNat) {cursor : Cursor}
    (hwithin : ColumnWithin width cursor.column) (text : Text)
    (padded : Bool) :
    LinesFit width.toNat cursor.column.toNatClampNeg
      ((cursor.cells width text).map (Cell.fit padded)) := by
  have hcolumn := hwithin.toNatClampNeg_lt hpositive
  by_cases htext : text = []
  · subst text
    exact Nat.le_of_lt hcolumn
  · have hfits : cursor.overflows width = false := by
      have hless := hwithin.2 hpositive
      rw [Bool.eq_false_iff, ne_eq, overflows_iff hwidth]
      omega
    rw [cells_of_ne_nil htext, spanCells_of_fits hfits]
    exact
      Position.linesFit_layOut ⟨_, cursor.filled⟩ hcolumn text padded

end Cursor

/-! ## The spans of one call -/

namespace Span

theorem columnWithin_foldl {width : UInt64} (hwidth : width.toNat < 2 ^ 63)
    {cursor : Cursor} (hwithin : ColumnWithin width cursor.column)
    {spans : List Span}
    (hbound :
      width.toNat = 0 →
        cursor.column.toNatClampNeg + (spans.flatMap text).length < 2 ^ 63) :
    ColumnWithin width
      (spans.foldl (fun cursor span => cursor.after width span.text)
        cursor).column := by
  induction spans generalizing cursor with
  | nil => exact hwithin
  | cons span rest ih =>
      simp only [List.flatMap_cons, List.length_append] at hbound
      obtain ⟨hfirst, hbehind⟩ := Cursor.bounds_of_add hwidth hbound
      exact ih (Cursor.columnWithin_after hwidth hwithin hfirst) hbehind

theorem linesFit_flow {configuration : Configuration}
    (hwidth : configuration.width.toNat < 2 ^ 63)
    (hpositive : 0 < configuration.width.toNat) (cursor : Cursor)
    (hwithin : ColumnWithin configuration.width cursor.column)
    (spans : List Span) :
    LinesFit configuration.width.toNat cursor.column.toNatClampNeg
      (flow configuration.width
        (fun cursor span => span.cells configuration cursor) cursor spans) := by
  induction spans generalizing cursor with
  | nil => exact Nat.le_of_lt (hwithin.toNatClampNeg_lt hpositive)
  | cons span rest ih =>
      have hbound :
          configuration.width.toNat = 0 →
            cursor.column.toNatClampNeg + span.text.length < 2 ^ 63 := by
        omega
      have hcolumn :
          (span.cells configuration cursor).foldl Cell.columnAfter
              cursor.column.toNatClampNeg =
            (cursor.after configuration.width
              span.text).column.toNatClampNeg :=
        (Cursor.linesFill_cells hwidth hbound _).2
      have hfirst :=
        Cursor.linesFit_cells hwidth hpositive hwithin span.text
          (span.style.codes configuration.depth).isStyled
      have hnext := Cursor.columnWithin_after hwidth hwithin hbound
      apply linesFit_append hfirst
      rw [← cells, hcolumn]
      exact ih _ hnext

end Span

namespace Formatter

/-- On lines of no width every character is written as it is. -/
theorem written_cells_zero {formatter : Formatter}
    (hzero : formatter.configuration.width = 0) (column : Int64)
    (text : Text) :
    (formatter.cells column text).flatMap (Cell.written id '\n') =
      (formatter.writtenSpans text).flatMap Span.text := by
  have hplain := congrArg Prod.fst (formatter.flow_withoutCodes column text)
  have hfit :
      (formatter.cells column text).map (Cell.fit false) =
        formatter.cells column text :=
    Span.fit_flow_zero (by rw [hzero]; rfl) _ _
  rw [hfit, flow_eq_wrapSpans] at hplain
  have hwidth : formatter.withoutCodes.configuration.width = 0 := hzero
  have hfilled : (⟨column, false⟩ : Cursor).filled = false := rfl
  have hwritten :
      (wrapSpans formatter.withoutCodes.configuration ⟨column, false⟩
          (formatter.withoutCodes.writtenSpans text)).1 =
        (formatter.writtenSpans text).flatMap Span.text :=
    wrapSpans_zero hwidth hfilled fun span _ => isStyled_codes_plain span.style
  exact hplain.symm.trans hwritten

/-- One call takes the column of the terminal to the column that it hands on. -/
theorem column_cells {formatter : Formatter}
    (hwidth : formatter.configuration.width.toNat < 2 ^ 63) {column : Int64}
    (hwithin : ColumnWithin formatter.configuration.width column) {text : Text}
    (hbound :
      formatter.configuration.width = 0 →
        column.toNatClampNeg +
          ((formatter.cells column text).flatMap
            (Cell.written id '\n')).length < 2 ^ 63) :
    let last := (formatter.flow column text).2
    (formatter.cells column text).foldl Cell.columnAfter
          column.toNatClampNeg = last.toNatClampNeg ∧
      ColumnWithin formatter.configuration.width last ∧
      (0 < formatter.configuration.width.toNat →
        LinesFit formatter.configuration.width.toNat column.toNatClampNeg
          (formatter.cells column text)) := by
  intro last
  have hspans :
      formatter.configuration.width.toNat = 0 →
        (⟨column, false⟩ : Cursor).column.toNatClampNeg +
          ((formatter.writtenSpans text).flatMap Span.text).length <
            2 ^ 63 := by
    intro hzero
    have hwidthZero : formatter.configuration.width = 0 :=
      UInt64.toNat_inj.mp hzero
    rw [← written_cells_zero hwidthZero column]
    exact hbound hwidthZero
  have hlast :
      last =
        (List.foldl
          (fun cursor span =>
            Cursor.after formatter.configuration.width cursor span.text)
          (⟨column, false⟩ : Cursor) (formatter.writtenSpans text)).column := by
    simp only [last, flow_eq_wrapSpans, wrapSpans_snd]
  rw [hlast]
  exact
    ⟨(Span.linesFill_flow hwidth ⟨column, false⟩ hspans).2,
      Span.columnWithin_foldl hwidth hwithin hspans,
      fun hpositive =>
        Span.linesFit_flow hwidth hpositive ⟨column, false⟩ hwithin _⟩

end Formatter

/-! ## Texts without escapes -/

theorem length_removeEscapes_le (text : Text) :
    (removeEscapes text).length ≤ text.length := by
  have hprinted (state : EscapeState) :
      (state.printed text).length ≤ text.length := by
    induction text generalizing state with
    | nil => exact Nat.le_refl _
    | cons char rest ih =>
        have hrest := ih (state.next char)
        simp only [EscapeState.printed]
        split
        · simp only [List.length_cons]
          omega
        · simp only [List.length_cons]
          omega
  exact hprinted .ground

theorem Terminal.state_after (terminal : Terminal) (text : Text) :
    (terminal.after text).reading.state =
      terminal.reading.state.after text := by
  induction text generalizing terminal with
  | nil => rfl
  | cons char rest ih =>
      rw [after_cons, ih, state_next]
      rfl

namespace Formatter

theorem glyphs_subset_texts (configuration : Configuration) (cursor : Cursor)
    (spans : List Span) :
    (Span.flow configuration.width
        (fun cursor span => span.cells configuration cursor) cursor
        spans).filterMap Cell.glyph? ⊆ spans.flatMap Span.text := by
  induction spans generalizing cursor with
  | nil => simp [Span.flow]
  | cons span rest ih =>
      simp only [Span.flow, List.filterMap_append, List.flatMap_cons]
      apply List.append_subset.mpr
      constructor
      · rw [Span.cells, filterMap_glyph?_map_fit,
          Cursor.filterMap_glyph?_cells]
        exact fun char hchar =>
          List.mem_append_left _ (List.mem_filter.mp hchar).1
      · exact fun char hchar => List.mem_append_right _ (ih _ hchar)

theorem mem_glyphs_of_mem_written {cells : List Cell} {char : Char}
    (hspace : char ≠ ' ') (hnewline : char ≠ '\n')
    (hchar : char ∈ cells.flatMap (Cell.written id '\n')) :
    char ∈ cells.filterMap Cell.glyph? := by
  obtain ⟨cell, hcell, hwritten⟩ := List.mem_flatMap.mp hchar
  cases cell with
  | glyph first =>
      have hfirst : char = first := by
        simpa [Cell.written] using hwritten
      exact List.mem_filterMap.mpr ⟨.glyph first, hcell, by rw [hfirst]; rfl⟩
  | fullBreak => simp [Cell.written, hnewline] at hwritten
  | hardBreak room =>
      simp [Cell.written, hspace, hnewline, List.mem_replicate] at hwritten

/-- Without codes the output is what its cells write. -/
theorem flow_eq_written_cells {formatter : Formatter}
    (hdepth : formatter.configuration.depth = .plain) (column : Int64)
    (text : Text) :
    (formatter.flow column text).1 =
      (formatter.cells column text).flatMap (Cell.written id '\n') := by
  have hsame : formatter.withoutCodes = formatter := by
    obtain ⟨⟨width, depth⟩, styles⟩ := formatter
    simp only [withoutCodes] at hdepth ⊢
    rw [hdepth]
  have hfit :
      (formatter.cells column text).map (Cell.fit false) =
        formatter.cells column text := by
    rw [cells, Span.flow_map]
    apply Span.flow_congr
    intro span _ cursor
    simp [Span.cells, hdepth, isStyled_codes_plain, Function.comp_def]
  have hflow := congrArg Prod.fst (formatter.flow_withoutCodes column text)
  rwa [hsame, hfit] at hflow

/-- Without its escape sequences the output is what its cells write, on every
terminal, and it leaves no sequence open. -/
theorem removeEscapes_flow_of_avoids {formatter : Formatter}
    (column : Int64) {text : Text}
    (htable : formatter.styles.LinksAvoid sequenceMarks)
    (htext : text.Avoids sequenceMarks) :
    removeEscapes (formatter.flow column text).1 =
        (formatter.cells column text).flatMap (Cell.written id '\n') ∧
      EscapeState.ground.after (formatter.flow column text).1 = .ground := by
  by_cases hdepth : formatter.configuration.depth.emitsCodes = true
  · refine ⟨removeEscapes_flow hdepth column htable htext, ?_⟩
    have hstate :=
      Terminal.state_after {} (formatter.flow column text).1
    rw [(display_flow hdepth column htable htext).2] at hstate
    exact hstate.symm
  · have hplain : formatter.configuration.depth = .plain := by
      cases hcase : formatter.configuration.depth with
      | plain => rfl
      | basic | indexed | trueColor => simp [hcase, ColorDepth.emitsCodes] at hdepth
    have hescape :
        '\x1b' ∉ (formatter.cells column text).flatMap
          (Cell.written id '\n') := by
      intro hmem
      have hglyph :=
        mem_glyphs_of_mem_written (by decide) (by decide) hmem
      obtain ⟨span, hspan, hchar⟩ :=
        List.mem_flatMap.mp (glyphs_subset_texts _ _ _ hglyph)
      have havoids :=
        (avoids_of_mem_writtenSpans htable htext (by decide) (by decide)
          hspan).1
      exact havoids.not_mem (by decide) hchar
    rw [flow_eq_written_cells hplain]
    exact printed_ground_of_not_mem hescape

/-! ## All calls -/

/-- Format texts one after another with a common column: all of the output, and
the column after it. -/
def flowAll (formatter : Formatter) : Int64 → List Text → Text × Int64
  | column, [] => ([], column)
  | column, text :: rest =>
      let (written, next) := formatter.flow column text
      let (others, last) := flowAll formatter next rest
      (written ++ others, last)

def cellsAll (formatter : Formatter) : Int64 → List Text → List Cell
  | _, [] => []
  | column, text :: rest =>
      formatter.cells column text ++
        cellsAll formatter (formatter.flow column text).2 rest

theorem removeEscapes_flowAll {formatter : Formatter}
    (htable : formatter.styles.LinksAvoid sequenceMarks) (column : Int64)
    {texts : List Text}
    (htexts : ∀ text ∈ texts, Text.Avoids text sequenceMarks) :
    removeEscapes (formatter.flowAll column texts).1 =
      (formatter.cellsAll column texts).flatMap (Cell.written id '\n') := by
  induction texts generalizing column with
  | nil => rfl
  | cons text rest ih =>
      have hfirst :=
        removeEscapes_flow_of_avoids column htable
          (htexts text List.mem_cons_self)
      have hrest :=
        ih (formatter.flow column text).2
          fun other hother => htexts other (List.mem_cons_of_mem _ hother)
      simp only [removeEscapes] at hfirst hrest ⊢
      simp only [flowAll, cellsAll, EscapeState.printed_append, hfirst.1,
        hfirst.2, hrest, List.flatMap_append]

theorem newline_not_mem_cellsAll (formatter : Formatter) (column : Int64)
    (texts : List Text) :
    '\n' ∉ (formatter.cellsAll column texts).filterMap Cell.glyph? := by
  induction texts generalizing column with
  | nil => simp [cellsAll]
  | cons text rest ih =>
      simp only [cellsAll, List.filterMap_append, List.mem_append, not_or]
      exact ⟨Span.newline_not_mem_flow _ _ _, ih _⟩

/-- All calls take the column of the terminal to the last column. -/
theorem column_cellsAll {formatter : Formatter}
    (hwidth : formatter.configuration.width.toNat < 2 ^ 63) {column : Int64}
    (hwithin : ColumnWithin formatter.configuration.width column)
    {texts : List Text}
    (hbound :
      formatter.configuration.width = 0 →
        column.toNatClampNeg +
          ((formatter.cellsAll column texts).flatMap
            (Cell.written id '\n')).length < 2 ^ 63) :
    let last := (formatter.flowAll column texts).2
    (formatter.cellsAll column texts).foldl Cell.columnAfter
          column.toNatClampNeg = last.toNatClampNeg ∧
      ColumnWithin formatter.configuration.width last ∧
      (0 < formatter.configuration.width.toNat →
        LinesFit formatter.configuration.width.toNat column.toNatClampNeg
          (formatter.cellsAll column texts)) := by
  induction texts generalizing column with
  | nil =>
      exact
        ⟨rfl, hwithin,
          fun hpositive => Nat.le_of_lt (hwithin.toNatClampNeg_lt hpositive)⟩
  | cons text rest ih =>
      simp only [cellsAll, List.flatMap_append, List.length_append] at hbound
      have hstart :
          formatter.configuration.width = 0 →
            column.toNatClampNeg +
              ((formatter.cells column text).flatMap
                (Cell.written id '\n')).length < 2 ^ 63 := by
        intro hzero
        have := hbound hzero
        omega
      have hfirst := column_cells hwidth hwithin hstart
      have hgrow :=
        foldl_columnAfter_le column.toNatClampNeg (formatter.cells column text)
      rw [hfirst.1] at hgrow
      have hrest := ih hfirst.2.1 (by
        intro hzero
        have := hbound hzero
        omega)
      simp only [flowAll, cellsAll, List.foldl_append, hfirst.1]
      refine ⟨hrest.1, hrest.2.1, ?_⟩
      intro hpositive
      apply linesFit_append (hfirst.2.2 hpositive)
      rw [hfirst.1]
      exact hrest.2.2 hpositive

/-- After any calls from column zero on, the column is the cursor of the
terminal, and on lines of a positive width no line has grown beyond the width.
All of the output is one string, whose length is a signed word; on lines of no
width that bounds the column. -/
theorem column_flowAll {formatter : Formatter}
    (hwidth : formatter.configuration.width.toNat < 2 ^ 63)
    (htable : formatter.styles.LinksAvoid sequenceMarks) {texts : List Text}
    (htexts : ∀ text ∈ texts, Text.Avoids text sequenceMarks)
    (hlength :
      formatter.configuration.width = 0 →
        (formatter.flowAll 0 texts).1.length < 2 ^ 63) :
    let stripped := removeEscapes (formatter.flowAll 0 texts).1
    let column := (formatter.flowAll 0 texts).2
    column.toInt = stripped.lastColumn ∧
      (0 < formatter.configuration.width →
        column.toInt < formatter.configuration.width.toNat ∧
          ∀ line ∈ stripped.splitOn '\n',
            line.length ≤ formatter.configuration.width.toNat) := by
  intro stripped column
  have hstripped :
      stripped =
        (formatter.cellsAll 0 texts).flatMap (Cell.written id '\n') :=
    removeEscapes_flowAll htable 0 htexts
  have hnewline := formatter.newline_not_mem_cellsAll 0 texts
  have hstart : ColumnWithin formatter.configuration.width 0 := by
    exact ⟨by decide, fun hpositive => by simpa using hpositive⟩
  have hshorter : stripped.length ≤ (formatter.flowAll 0 texts).1.length :=
    length_removeEscapes_le _
  have hbound :
      formatter.configuration.width = 0 →
        (0 : Int64).toNatClampNeg +
          ((formatter.cellsAll 0 texts).flatMap
            (Cell.written id '\n')).length < 2 ^ 63 := by
    intro hzero
    have hless := hlength hzero
    rw [← hstripped]
    show 0 + stripped.length < 2 ^ 63
    omega
  obtain ⟨hcolumn, hwithin, hfit⟩ := column_cellsAll hwidth hstart hbound
  constructor
  · have hlast : stripped.lastColumn = column.toNatClampNeg := by
      rw [Text.lastColumn_eq_foldl, hstripped,
        foldl_columnAfterChar_written hnewline]
      exact hcolumn
    rw [hlast]
    exact hwithin.toNatClampNeg_eq
  · intro hpositive
    have hwide : 0 < formatter.configuration.width.toNat :=
      UInt64.lt_iff_toNat_lt.mp hpositive
    refine ⟨hwithin.2 hwide, ?_⟩
    rw [hstripped, splitOn_written hnewline]
    obtain ⟨first, others, hlines, hfirst, hothers⟩ := (hfit hwide).lines
    rw [hlines]
    intro line hline
    rcases List.mem_cons.mp hline with rfl | hmem
    · omega
    · exact hothers line hmem

/-- The second call goes on behind the padded line of the first. -/
theorem column_flowAll_padded :
    let formatter : Formatter :=
      { configuration := Configuration.basic.withWidth 4 }
    let texts := ["<bg=blue>ab\nc</>".toList, "de".toList]
    let shown := "ab  \ncde".toList
    removeEscapes (formatter.flowAll 0 texts).1 = shown ∧
      (formatter.flowAll 0 texts).2.toInt = Text.lastColumn shown ∧
      ∀ line ∈ shown.splitOn '\n', line.length ≤ 4 := by
  intro formatter texts shown
  have htable : formatter.styles.LinksAvoid sequenceMarks :=
    StyleTable.linksAvoid_of_entries (by decide)
  have hcolumn :=
    @column_flowAll formatter (by decide) htable texts (by decide +kernel)
      (fun hzero => absurd hzero (by decide))
  have hshown : removeEscapes (formatter.flowAll 0 texts).1 = shown := by
    decide +kernel
  rw [hshown] at hcolumn
  exact ⟨hshown, hcolumn.1, (hcolumn.2 (by decide)).2⟩

end Formatter

end TerminalMarkup
