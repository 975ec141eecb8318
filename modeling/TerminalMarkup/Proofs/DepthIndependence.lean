import TerminalMarkup.Proofs.PlainFlow
import TerminalMarkup.Proofs.StyleAttribution

/-!
# Colors and the layout

The depth of a terminal and the styles of a text have no say in where lines are
broken.  They decide on codes and on padding, which fills a line exactly since
the room before a newline is counted from the column at which the line stands.
-/

namespace TerminalMarkup

/-- Lines beside the same lines with padding.  Only a line that another line
follows is padded, and padding brings it to the width.  The first line starts at
a column of its own. -/
inductive PaddedTo (width : Nat) : Nat → List Text → List Text → Prop
  | last (start : Nat) (line : Text) : PaddedTo width start [line] [line]
  | ended {start : Nat} {line : Text} {lines padded : List Text} (room : Nat)
      (hroom : room ≠ 0 → start + line.length + room = width)
      (hrest : PaddedTo width 0 lines padded) :
      PaddedTo width start (line :: lines)
        ((line ++ List.replicate room ' ') :: padded)

namespace PaddedTo

theorem length_eq {width start : Nat} {lines padded : List Text}
    (hpadded : PaddedTo width start lines padded) :
    padded.length = lines.length := by
  induction hpadded with
  | last start line => rfl
  | ended room hroom _ ih => simp [ih]

theorem modifyHead_cons {width start : Nat} {lines padded : List Text}
    (hpadded : PaddedTo width (start + 1) lines padded) (char : Char) :
    PaddedTo width start (lines.modifyHead (char :: ·))
      (padded.modifyHead (char :: ·)) := by
  cases hpadded with
  | last _ line => exact .last start (char :: line)
  | @ended _ line lines padded room hroom hrest =>
      have hlonger : room ≠ 0 → start + (char :: line).length + room = width := by
        intro hpositive
        have := hroom hpositive
        rw [List.length_cons]
        omega
      exact .ended room hlonger hrest

end PaddedTo

/-! ## The column along the cells -/

namespace Cell

def columnAfter (column : Nat) : Cell → Nat
  | glyph _ => column + 1
  | fullBreak => 0
  | hardBreak _ => 0

@[simp] theorem columnAfter_fit (column : Nat) (padded : Bool) (cell : Cell) :
    (cell.fit padded).columnAfter column = cell.columnAfter column := by
  cases cell <;> rfl

/-- A break leaves just the room that its line lacks to the width. -/
def LeavesRest (width column : Nat) : Cell → Prop
  | glyph _ => True
  | fullBreak => width ≤ column
  | hardBreak room => room = width - column

/-- The room before a newline, if there is any, reaches exactly to the width. -/
def Fills (width column : Nat) : Cell → Prop
  | hardBreak room => room ≠ 0 → column + room = width
  | _ => True

theorem LeavesRest.fills_fit {width column : Nat} {cell : Cell}
    (hcell : cell.LeavesRest width column) (padded : Bool) :
    (cell.fit padded).Fills width column := by
  cases cell with
  | glyph char => trivial
  | fullBreak => trivial
  | hardBreak room =>
      have hroom : room = width - column := hcell
      intro hpositive
      cases padded with
      | true =>
          simp only [if_true] at hpositive ⊢
          omega
      | false => exact absurd rfl hpositive

end Cell

theorem foldl_columnAfter_map_fit (column : Nat) (padded : Bool)
    (cells : List Cell) :
    (cells.map (Cell.fit padded)).foldl Cell.columnAfter column =
      cells.foldl Cell.columnAfter column := by
  simp [List.foldl_map]

/-- Every break among the cells leaves the rest of its line, when the first line
starts at some column. -/
def BreaksLeaveRest (width : Nat) : Nat → List Cell → Prop
  | _, [] => True
  | column, cell :: rest =>
      cell.LeavesRest width column ∧
        BreaksLeaveRest width (cell.columnAfter column) rest

theorem breaksLeaveRest_append {width column : Nat} {first second : List Cell}
    (hfirst : BreaksLeaveRest width column first)
    (hsecond :
      BreaksLeaveRest width (first.foldl Cell.columnAfter column) second) :
    BreaksLeaveRest width column (first ++ second) := by
  induction first generalizing column with
  | nil => exact hsecond
  | cons cell rest ih => exact ⟨hfirst.1, ih hfirst.2 hsecond⟩

/-- Every newline among the cells fills its line, when the first line starts at
some column. -/
def LinesFill (width : Nat) : Nat → List Cell → Prop
  | _, [] => True
  | column, cell :: rest =>
      cell.Fills width column ∧ LinesFill width (cell.columnAfter column) rest

theorem linesFill_append {width column : Nat} {first second : List Cell}
    (hfirst : LinesFill width column first)
    (hsecond :
      LinesFill width (first.foldl Cell.columnAfter column) second) :
    LinesFill width column (first ++ second) := by
  induction first generalizing column with
  | nil => exact hsecond
  | cons cell rest ih => exact ⟨hfirst.1, ih hfirst.2 hsecond⟩

/-- Breaks that leave the rest of their lines fill them, whether or not the
lines are padded. -/
theorem BreaksLeaveRest.linesFill {width column : Nat} {cells : List Cell}
    (hbreaks : BreaksLeaveRest width column cells) (padded : Bool) :
    LinesFill width column (cells.map (Cell.fit padded)) := by
  induction cells generalizing column with
  | nil => trivial
  | cons cell rest ih =>
      refine ⟨hbreaks.1.fills_fit padded, ?_⟩
      rw [Cell.columnAfter_fit]
      exact ih hbreaks.2

theorem linesFill_of_fit {cells : List Cell}
    (hfit : cells.map (Cell.fit false) = cells) (width column : Nat) :
    LinesFill width column cells := by
  induction cells generalizing column with
  | nil => trivial
  | cons cell rest ih =>
      simp only [List.map_cons, List.cons.injEq] at hfit
      refine ⟨?_, ih hfit.2 _⟩
      cases cell with
      | glyph char => trivial
      | fullBreak => trivial
      | hardBreak room =>
          intro hroom
          have hzero : 0 = room := by simpa [Cell.fit] using hfit.1
          exact absurd hzero.symm hroom

theorem PaddedTo.linesOfCells {width column : Nat} {cells : List Cell}
    (hfill : LinesFill width column cells) :
    PaddedTo width column (linesOfCells false cells)
      (linesOfCells true cells) := by
  induction cells generalizing column with
  | nil => exact .last column []
  | cons cell rest ih =>
      obtain ⟨hcell, hrest⟩ := hfill
      cases cell with
      | glyph char => exact (ih hrest).modifyHead_cons char
      | fullBreak => exact .ended 0 (fun hroom => absurd rfl hroom) (ih hrest)
      | hardBreak room => exact .ended room hcell (ih hrest)

namespace Position

/-- One character: its break leaves the rest of the line, and the column after
its cells is that of the next position. -/
theorem breaksLeaveRest_cells (width : Nat) (position : Position)
    (char : Char) :
    BreaksLeaveRest width position.column (position.cells width char) ∧
      (position.cells width char).foldl Cell.columnAfter position.column =
        (position.next width char).column := by
  by_cases hnewline : char = '\n'
  · by_cases hfilled : position.filled = true
    · simp [cells, next, hnewline, hfilled, BreaksLeaveRest]
    · simp [cells, next, hnewline, hfilled, BreaksLeaveRest, Cell.LeavesRest,
        Cell.columnAfter]
  · by_cases hfull : 0 < width ∧ width ≤ position.column + 1
    · simp [cells, next, hnewline, hfull, BreaksLeaveRest, Cell.LeavesRest,
        Cell.columnAfter]
    · simp [cells, next, hnewline, hfull, BreaksLeaveRest, Cell.LeavesRest,
        Cell.columnAfter]

theorem breaksLeaveRest_layOut (width : Nat) (position : Position)
    (text : Text) :
    BreaksLeaveRest width position.column (position.layOut width text) ∧
      (position.layOut width text).foldl Cell.columnAfter position.column =
        (position.after width text).column := by
  induction text generalizing position with
  | nil => exact ⟨trivial, rfl⟩
  | cons char rest ih =>
      have hchar := breaksLeaveRest_cells width position char
      have hrest := ih (position.next width char)
      rw [layOut, List.foldl_append, hchar.2]
      constructor
      · apply breaksLeaveRest_append hchar.1
        rw [hchar.2]
        exact hrest.1
      · exact hrest.2

theorem fit_layOut_zero (position : Position) (text : Text)
    (padded : Bool) :
    (position.layOut 0 text).map (Cell.fit padded) =
      position.layOut 0 text := by
  induction text generalizing position with
  | nil => rfl
  | cons char rest ih =>
      have hcells :
          (position.cells 0 char).map (Cell.fit padded) =
            position.cells 0 char := by
        unfold cells
        by_cases hnewline : char = '\n'
        · by_cases hfilled : position.filled = true
          · simp [hnewline, hfilled]
          · simp [hnewline, hfilled, Cell.fit]
        · simp [hnewline, Cell.fit]
      simp only [layOut, List.map_append, hcells, ih]

end Position

namespace Cursor

theorem breaksLeaveRest_spanCells {width : UInt64}
    (hwidth : width.toNat < 2 ^ 63) (cursor : Cursor) (text : Text) :
    let cells := spanCells width cursor text
    BreaksLeaveRest width.toNat cursor.column.toNatClampNeg cells ∧
      cells.foldl Cell.columnAfter cursor.column.toNatClampNeg =
        ((cursor.position width).after width.toNat text).column := by
  intro cells
  simp only [cells]
  cases hover : cursor.overflows width with
  | true =>
      have hlayOut :=
        Position.breaksLeaveRest_layOut width.toNat ⟨0, true⟩ text
      rw [spanCells_of_overflows hover, position_of_overflows hover]
      exact ⟨⟨le_column_of_overflows hwidth hover, hlayOut.1⟩, hlayOut.2⟩
  | false =>
      rw [spanCells_of_fits hover, position_of_fits hover]
      exact
        Position.breaksLeaveRest_layOut width.toNat
          ⟨cursor.column.toNatClampNeg, cursor.filled⟩ text

theorem breaksLeaveRest_cells {width : UInt64}
    (hwidth : width.toNat < 2 ^ 63) (cursor : Cursor) (text : Text) :
    BreaksLeaveRest width.toNat cursor.column.toNatClampNeg
      (cursor.cells width text) := by
  by_cases htext : text = []
  · subst text
    trivial
  · rw [cells_of_ne_nil htext]
    exact (breaksLeaveRest_spanCells hwidth cursor text).1

theorem linesFill_cells {width : UInt64} (hwidth : width.toNat < 2 ^ 63)
    {cursor : Cursor} {text : Text}
    (hbound :
      width.toNat = 0 →
        cursor.column.toNatClampNeg + text.length < 2 ^ 63)
    (padded : Bool) :
    let cells := (cursor.cells width text).map (Cell.fit padded)
    LinesFill width.toNat cursor.column.toNatClampNeg cells ∧
      cells.foldl Cell.columnAfter cursor.column.toNatClampNeg =
        (cursor.after width text).column.toNatClampNeg := by
  intro cells
  refine ⟨(breaksLeaveRest_cells hwidth cursor text).linesFill padded, ?_⟩
  by_cases htext : text = []
  · subst text
    rfl
  · have hshort := (after_position_bounds hwidth hbound).1
    rw [foldl_columnAfter_map_fit, cells_of_ne_nil htext,
      (breaksLeaveRest_spanCells hwidth cursor text).2, after_of_ne_nil htext]
    exact (Int64.toNatClampNeg_ofNat_of_lt hshort).symm

theorem fit_cells_zero {width : UInt64} (hzero : width.toNat = 0)
    (cursor : Cursor) (text : Text) (padded : Bool) :
    (cursor.cells width text).map (Cell.fit padded) =
      cursor.cells width text := by
  by_cases htext : text = []
  · subst text
    rfl
  · rw [cells_of_ne_nil htext]
    unfold spanCells
    rw [hzero, List.map_append, Position.fit_layOut_zero]
    split <;> rfl

end Cursor

/-! ## Both outputs from the same cells -/

namespace Span

/-- The invariant along all spans: what a newline leaves free is filled, and the
column of the cells is that of the cursor. -/
theorem linesFill_flow {configuration : Configuration}
    (hwidth : configuration.width.toNat < 2 ^ 63) (cursor : Cursor)
    {spans : List Span}
    (hbound :
      configuration.width.toNat = 0 →
        cursor.column.toNatClampNeg + (spans.flatMap text).length < 2 ^ 63) :
    let cells :=
      flow configuration.width
        (fun cursor span => span.cells configuration cursor) cursor spans
    LinesFill configuration.width.toNat cursor.column.toNatClampNeg cells ∧
      cells.foldl Cell.columnAfter cursor.column.toNatClampNeg =
        (spans.foldl
          (fun cursor span => cursor.after configuration.width span.text)
          cursor).column.toNatClampNeg := by
  induction spans generalizing cursor with
  | nil => exact ⟨trivial, rfl⟩
  | cons span rest ih =>
      simp only [List.flatMap_cons, List.length_append] at hbound
      obtain ⟨hfirst, hbehind⟩ := Cursor.bounds_of_add hwidth hbound
      have hspan :
          LinesFill configuration.width.toNat cursor.column.toNatClampNeg
              (span.cells configuration cursor) ∧
            (span.cells configuration cursor).foldl Cell.columnAfter
                cursor.column.toNatClampNeg =
              (cursor.after configuration.width
                span.text).column.toNatClampNeg :=
        Cursor.linesFill_cells hwidth hfirst _
      have hrest := ih (cursor.after configuration.width span.text) hbehind
      simp only [flow, List.foldl_append, List.foldl_cons]
      constructor
      · apply linesFill_append hspan.1
        rw [hspan.2]
        exact hrest.1
      · rw [hspan.2, hrest.2]

theorem fit_flow_zero {configuration : Configuration}
    (hzero : configuration.width.toNat = 0) (cursor : Cursor)
    (spans : List Span) :
    (flow configuration.width
        (fun cursor span => span.cells configuration cursor) cursor
        spans).map (Cell.fit false) =
      flow configuration.width
        (fun cursor span => span.cells configuration cursor) cursor spans := by
  rw [flow_map]
  apply flow_congr
  intro span _ cursor
  simp only [cells, Cursor.fit_cells_zero hzero]

theorem newline_not_mem_flow (configuration : Configuration)
    (cursor : Cursor) (spans : List Span) :
    '\n' ∉
      (flow configuration.width
        (fun cursor span => span.cells configuration cursor) cursor
        spans).filterMap Cell.glyph? := by
  induction spans generalizing cursor with
  | nil => simp [flow]
  | cons span rest ih =>
      simp only [flow, List.filterMap_append, List.mem_append, not_or]
      refine ⟨?_, ih _⟩
      rw [cells, filterMap_glyph?_map_fit]
      exact Cursor.newline_not_mem_glyphs _ _ _

end Span

theorem map_char_written (style : Style) (depth : ColorDepth)
    (cells : List Cell) :
    (cells.flatMap (Cell.written (style.show depth) ⟨'\n', {}⟩)).map
        ShownChar.char =
      cells.flatMap (Cell.written id '\n') := by
  rw [List.map_flatMap]
  congr
  funext cell
  cases cell <;> simp [Cell.written, Style.show]

namespace Formatter

/-- The cells of all that a marked-up text writes. -/
def cells (formatter : Formatter) (column : Int64) (text : Text) : List Cell :=
  Span.flow formatter.configuration.width
    (fun cursor span => span.cells formatter.configuration cursor)
    ⟨column, false⟩ (formatter.writtenSpans text)

theorem removeEscapes_flow {formatter : Formatter}
    (hdepth : formatter.configuration.depth.emitsCodes = true)
    (column : Int64) {text : Text}
    (htable : formatter.styles.LinksAvoid sequenceMarks)
    (htext : text.Avoids sequenceMarks) :
    removeEscapes (formatter.flow column text).1 =
      (formatter.cells column text).flatMap (Cell.written id '\n') := by
  rw [← Terminal.map_char_display_initial,
    (display_flow hdepth column htable htext).1, Span.flow_map, cells,
    Span.flow_flatMap]
  apply Span.flow_congr
  intro span _ cursor
  exact map_char_written _ _ _

def withoutCodes (formatter : Formatter) : Formatter :=
  { formatter with
    configuration := { formatter.configuration with depth := .plain } }

theorem flow_withoutCodes (formatter : Formatter) (column : Int64)
    (text : Text) :
    formatter.withoutCodes.flow column text =
      (((formatter.cells column text).map (Cell.fit false)).flatMap
          (Cell.written id '\n'),
        (formatter.flow column text).2) := by
  have hspans :
      formatter.withoutCodes.writtenSpans text =
        formatter.writtenSpans text := rfl
  have hwidth :
      formatter.withoutCodes.configuration.width =
        formatter.configuration.width := rfl
  simp only [flow_eq_wrapSpans, hspans]
  apply Prod.ext
  · simp only [wrapSpans_fst, hwidth]
    rw [cells, Span.flow_map, Span.flow_flatMap]
    apply Span.flow_congr
    intro span _ cursor
    have hcells :
        (span.cells formatter.configuration cursor).map (Cell.fit false) =
          (cursor.cells formatter.configuration.width span.text).map
            (Cell.fit false) := by
      simp [Span.cells, Function.comp_def]
    rw [hcells]
    exact wrapSpan_of_not_styled rfl _ _ _
  · simp only [wrapSpans_snd, hwidth]

theorem linesFill_cells {formatter : Formatter}
    (hwidth : formatter.configuration.width.toNat < 2 ^ 63)
    (column : Int64) (text : Text) :
    LinesFill formatter.configuration.width.toNat column.toNatClampNeg
      (formatter.cells column text) := by
  -- On lines of no width the column may leave the words, but no room is left.
  by_cases hzero : formatter.configuration.width.toNat = 0
  · exact linesFill_of_fit (Span.fit_flow_zero hzero _ _) _ _
  · exact
      (Span.linesFill_flow hwidth ⟨column, false⟩
        fun h => absurd h hzero).1

/-- Colors change neither the lines nor the column after them: without its
escape sequences the output has the lines of the plain output with padding, and
on lines of no width it is the plain output. -/
theorem paddedTo_removeEscapes_flow (formatter : Formatter)
    (hdepth : formatter.configuration.depth.emitsCodes = true)
    (hwidth : formatter.configuration.width.toNat < 2 ^ 63)
    (column : Int64) {text : Text}
    (htable : formatter.styles.LinksAvoid sequenceMarks)
    (htext : text.Avoids sequenceMarks) :
    let stripped := removeEscapes (formatter.flow column text).1
    let written := (formatter.withoutCodes.flow column text).1
    (formatter.flow column text).2 =
        (formatter.withoutCodes.flow column text).2 ∧
      (stripped.splitOn '\n').length = (written.splitOn '\n').length ∧
      PaddedTo formatter.configuration.width.toNat column.toNatClampNeg
        (written.splitOn '\n') (stripped.splitOn '\n') ∧
      (formatter.configuration.width = 0 → stripped = written) := by
  intro stripped written
  have hstripped : stripped = _ :=
    removeEscapes_flow hdepth column htable htext
  have hwritten : written = _ :=
    congrArg Prod.fst (formatter.flow_withoutCodes column text)
  have hnewline : '\n' ∉ (formatter.cells column text).filterMap Cell.glyph? :=
    Span.newline_not_mem_flow _ _ _
  have hstrippedLines :
      stripped.splitOn '\n' =
        linesOfCells true (formatter.cells column text) := by
    rw [hstripped, splitOn_written hnewline]
  have hwrittenLines :
      written.splitOn '\n' =
        linesOfCells false (formatter.cells column text) := by
    rw [hwritten, splitOn_written (by rwa [filterMap_glyph?_map_fit]),
      linesOfCells_map_fit]
  have hpadded :=
    PaddedTo.linesOfCells (linesFill_cells hwidth column text)
  rw [hstrippedLines, hwrittenLines]
  refine ⟨?_, hpadded.length_eq, hpadded, ?_⟩
  · rw [flow_withoutCodes]
  · intro hzero
    have hfit :
        (formatter.cells column text).map (Cell.fit false) =
          formatter.cells column text :=
      Span.fit_flow_zero (by rw [hzero]; rfl) _ _
    rw [hstripped, hwritten, hfit]

/-- A background that begins in column one fills its first line. -/
theorem paddedTo_removeEscapes_flow_background :
    let formatter : Formatter :=
      { configuration := Configuration.basic.withWidth 5 }
    let text := "<bg=blue>ab\ncd</>".toList
    (formatter.flow 1 text).2 = (formatter.withoutCodes.flow 1 text).2 ∧
      PaddedTo 5 1 ["ab".toList, "cd".toList] ["ab  ".toList, "cd".toList] := by
  intro formatter text
  have htable : formatter.styles.LinksAvoid sequenceMarks :=
    StyleTable.linksAvoid_of_entries (by decide)
  have hpadded :=
    @paddedTo_removeEscapes_flow formatter rfl (by decide) 1 text htable
      (by decide +kernel)
  have hstripped :
      (removeEscapes (formatter.flow 1 text).1).splitOn '\n' =
        ["ab  ".toList, "cd".toList] := by
    decide +kernel
  have hwritten :
      (formatter.withoutCodes.flow 1 text).1.splitOn '\n' =
        ["ab".toList, "cd".toList] := by
    decide +kernel
  rw [← hstripped, ← hwritten]
  exact ⟨hpadded.1, hpadded.2.2.1⟩

end Formatter

/-- Lines filled with spaces up to the width, all but the last.  The first line
starts at a column of its own. -/
def padLines (width : Nat) : Nat → List Text → List Text
  | _, [] => []
  | _, [last] => [last]
  | start, line :: next :: rest =>
      (line ++ List.replicate (width - (start + line.length)) ' ') ::
        padLines width 0 (next :: rest)

theorem padLines_cons {lines : List Text} (hlines : lines ≠ [])
    (width start : Nat) (line : Text) :
    padLines width start (line :: lines) =
      (line ++ List.replicate (width - (start + line.length)) ' ') ::
        padLines width 0 lines := by
  obtain ⟨next, rest, rfl⟩ := List.exists_cons_of_ne_nil hlines
  rfl

theorem padLines_modifyHead_cons (width start : Nat) (char : Char)
    (lines : List Text) :
    padLines width start (lines.modifyHead (char :: ·)) =
      (padLines width (start + 1) lines).modifyHead (char :: ·) := by
  cases lines with
  | nil => rfl
  | cons line rest =>
      cases rest with
      | nil => rfl
      | cons next others =>
          have hlonger :
              start + (char :: line).length = start + 1 + line.length := by
            rw [List.length_cons]
            omega
          simp only [List.modifyHead_cons, padLines, hlonger, List.cons_append]

theorem BreaksLeaveRest.linesOfCells_eq {width column : Nat}
    {cells : List Cell} (hbreaks : BreaksLeaveRest width column cells) :
    linesOfCells true cells =
      padLines width column (linesOfCells false cells) := by
  induction cells generalizing column with
  | nil => rfl
  | cons cell rest ih =>
      obtain ⟨hcell, hrest⟩ := hbreaks
      have hlines := linesOfCells_ne_nil false rest
      cases cell with
      | glyph char =>
          have hnext :
              linesOfCells true rest =
                padLines width (column + 1) (linesOfCells false rest) :=
            ih hrest
          simp only [linesOfCells, padLines_modifyHead_cons, hnext]
      | fullBreak =>
          have hnone : width - (column + ([] : Text).length) = 0 :=
            Nat.sub_eq_zero_of_le hcell
          simp only [linesOfCells]
          rw [padLines_cons hlines, hnone, ih hrest]
          rfl
      | hardBreak room =>
          have hroom : room = width - (column + ([] : Text).length) := hcell
          simp only [linesOfCells, if_true, Bool.false_eq_true, if_false]
          rw [padLines_cons hlines, ← hroom, ih hrest]
          rfl

/-! ## The styled output from the plain one -/

/-- A styled output is made of the lines of the plain output, each but the last
filled up to the width, and all of them put between the codes.  The column after
it is the same.  Codes that are empty make no difference to the output. -/
theorem wrap_eq_apply_padLines {width : UInt64} (hwidth : width.toNat < 2 ^ 63)
    (plainDepth depth : ColorDepth) (style : Style) (column : Int64)
    (text : Text) :
    let unstyled := wrap width plainDepth .empty column text
    let lines := unstyled.1.splitOn '\n'
    let styled := wrap width depth style column text
    styled.2 = unstyled.2 ∧
      styled.1 =
        if (style.codes depth).isStyled then
          ['\n'].intercalate
            ((padLines width.toNat column.toNatClampNeg lines).map
              (style.apply depth))
        else
          unstyled.1 := by
  intro unstyled lines styled
  have hunstyled := isStyled_codes_empty plainDepth
  refine ⟨rfl, ?_⟩
  split
  next hcodes =>
    have hlines :
        lines = linesOfCells false (Cursor.cells width ⟨column, false⟩ text) :=
      splitOn_wrapSpan_of_not_styled hunstyled width ⟨column, false⟩ text
    have hbreaks := Cursor.breaksLeaveRest_cells hwidth ⟨column, false⟩ text
    rw [hlines, ← hbreaks.linesOfCells_eq]
    simp only [styled, wrap, wrapSpan_eq_writeLines, writeLines, hcodes]
    rfl
  next hcodes =>
    have hplain : (style.codes depth).isStyled = false := by
      simpa using hcodes
    simp only [styled, unstyled, wrap]
    rw [wrapSpan_of_not_styled hplain, wrapSpan_of_not_styled hunstyled]

/-- A leading break, a padded line, a full line with its newline, and a blank
line. -/
theorem wrap_eq_apply_padLines_all_breaks :
    let style : Style := { background := some "blue".toList }
    let text := "a\nbcde\n\nf".toList
    (style.codes .basic).isStyled = true ∧
      wrap 4 .trueColor .empty 4 text = ("\na\nbcde\n\nf".toList, 1) ∧
      wrap 4 .basic style 4 text =
        (['\n'].intercalate
            (["", "a   ", "bcde", "    ", "f"].map
              fun line => style.apply .basic line.toList),
          1) := by
  intro style text
  have hstyled : (style.codes .basic).isStyled = true := by
    decide
  have hplain :
      wrap 4 .trueColor .empty 4 text = ("\na\nbcde\n\nf".toList, 1) := by
    decide +kernel
  have hlines :=
    wrap_eq_apply_padLines (by decide : (4 : UInt64).toNat < 2 ^ 63)
      .trueColor .basic style 4 text
  rw [hplain] at hlines
  refine ⟨hstyled, hplain, Prod.ext ?_ hlines.1⟩
  rw [hlines.2, if_pos hstyled]
  decide +kernel

end TerminalMarkup
