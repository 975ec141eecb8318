import Mathlib.Algebra.Group.Int.Defs
import Mathlib.Algebra.Group.Nat.Defs
import TerminalMarkup.Formatter

/-!
# Cells and the flow of spans

A list of cells is written as lines, one cell at a time, and can be read back.
Spans are wrapped one after another, and on lines whose width is a signed word
the cursor is all that one span leaves to the next.
-/

namespace TerminalMarkup

namespace Cell

/-- What a cell writes, when `letter` stands for a character and `lineEnd` for
the end of a line. -/
def written {α : Type} (letter : Char → α) (lineEnd : α) : Cell → List α
  | glyph char => [letter char]
  | fullBreak => [lineEnd]
  | hardBreak room => List.replicate room (letter ' ') ++ [lineEnd]

/-- Leave no room before a newline, unless lines are padded. -/
def fit (padded : Bool) : Cell → Cell
  | hardBreak room => hardBreak (if padded then room else 0)
  | cell => cell

def mapGlyph (change : Char → Char) : Cell → Cell
  | glyph char => glyph (change char)
  | cell => cell

def glyph? : Cell → Option Char
  | glyph char => some char
  | _ => none

@[simp] theorem fit_fit (outer inner : Bool) (cell : Cell) :
    (cell.fit inner).fit outer = cell.fit (outer && inner) := by
  cases cell <;> cases outer <;> rfl

end Cell

theorem linesOfCells_ne_nil (padded : Bool) (cells : List Cell) :
    linesOfCells padded cells ≠ [] := by
  induction cells with
  | nil => simp [linesOfCells]
  | cons cell rest ih =>
      cases cell with
      | glyph char => simpa [linesOfCells] using ih
      | fullBreak => simp [linesOfCells]
      | hardBreak room => simp [linesOfCells]

theorem linesOfCells_map_fit (padded : Bool) (cells : List Cell) :
    linesOfCells true (cells.map (Cell.fit padded)) =
      linesOfCells padded cells := by
  induction cells with
  | nil => rfl
  | cons cell rest ih =>
      cases cell <;> cases padded <;>
        simp [linesOfCells, Cell.fit, ih]

private theorem intercalate_modifyHead_cons {α : Type} (mark first : α)
    {lines : List (List α)} (hlines : lines ≠ []) :
    [mark].intercalate (lines.modifyHead (first :: ·)) =
      first :: [mark].intercalate lines := by
  obtain ⟨line, others, rfl⟩ := List.exists_cons_of_ne_nil hlines
  simp

/-- Lines with an end between each two of them are written cell by cell. -/
theorem intercalate_linesOfCells {α : Type} (letter : Char → α) (lineEnd : α)
    (cells : List Cell) :
    [lineEnd].intercalate ((linesOfCells true cells).map (·.map letter)) =
      cells.flatMap (Cell.written letter lineEnd) := by
  induction cells with
  | nil => simp [linesOfCells]
  | cons cell rest ih =>
      have hlines :
          (linesOfCells true rest).map (·.map letter) ≠ [] := by
        simpa using linesOfCells_ne_nil true rest
      cases cell with
      | glyph char =>
          have hhead :
              ((linesOfCells true rest).modifyHead (char :: ·)).map
                  (·.map letter) =
                ((linesOfCells true rest).map (·.map letter)).modifyHead
                  (letter char :: ·) := by
            cases linesOfCells true rest <;> simp
          simp only [linesOfCells, List.flatMap_cons, Cell.written]
          rw [hhead, intercalate_modifyHead_cons _ _ hlines, ih]
          rfl
      | fullBreak =>
          simp only [linesOfCells, List.map_cons, List.map_nil,
            List.flatMap_cons, Cell.written]
          rw [List.intercalate_cons_of_ne_nil hlines, ih]
          rfl
      | hardBreak room =>
          simp only [linesOfCells, List.map_cons, if_true,
            List.map_replicate, List.flatMap_cons, Cell.written]
          rw [List.intercalate_cons_of_ne_nil hlines, ih]

/-- The lines of a text are found again in it, since no character that is put
on a line is a newline. -/
theorem splitOn_written {cells : List Cell}
    (hglyph : '\n' ∉ cells.filterMap Cell.glyph?) :
    (cells.flatMap (Cell.written id '\n')).splitOn '\n' =
      linesOfCells true cells := by
  induction cells with
  | nil => rfl
  | cons cell rest ih =>
      cases cell with
      | glyph char =>
          simp only [List.filterMap_cons, Cell.glyph?, List.mem_cons,
            not_or] at hglyph
          have hchar : char ≠ '\n' := fun heq => hglyph.1 heq.symm
          simp only [List.flatMap_cons, Cell.written, linesOfCells]
          rw [← ih hglyph.2]
          simp [List.splitOn_cons_eq_if_modifyHead, hchar]
      | fullBreak =>
          simp only [List.filterMap_cons, Cell.glyph?] at hglyph
          simp only [List.flatMap_cons, Cell.written, linesOfCells]
          rw [← ih hglyph]
          simp [List.splitOn_cons_eq_if_modifyHead]
      | hardBreak room =>
          simp only [List.filterMap_cons, Cell.glyph?] at hglyph
          have hspaces : '\n' ∉ List.replicate room ' ' := by
            simp [List.mem_replicate]
          simp only [List.flatMap_cons, Cell.written, linesOfCells, if_true]
          rw [← ih hglyph]
          simpa using
            List.splitOn_append_cons_self_of_not_mem hspaces
              (rest.flatMap (Cell.written id '\n'))

theorem filterMap_glyph?_map_fit (padded : Bool) (cells : List Cell) :
    (cells.map (Cell.fit padded)).filterMap Cell.glyph? =
      cells.filterMap Cell.glyph? := by
  have hglyph : Cell.glyph? ∘ Cell.fit padded = Cell.glyph? := by
    funext cell
    cases cell <;> rfl
  rw [List.filterMap_map, hglyph]

theorem mem_line_of_cells {padded : Bool} {cells : List Cell} {line : Text}
    {char : Char} (hline : line ∈ linesOfCells padded cells)
    (hchar : char ∈ line) :
    char = ' ' ∨ char ∈ cells.filterMap Cell.glyph? := by
  induction cells generalizing line with
  | nil =>
      simp only [linesOfCells, List.mem_singleton] at hline
      simp [hline] at hchar
  | cons cell rest ih =>
      cases cell with
      | glyph first =>
          obtain ⟨head, others, hlines⟩ :=
            List.exists_cons_of_ne_nil (linesOfCells_ne_nil padded rest)
          simp only [linesOfCells, hlines, List.modifyHead_cons,
            List.mem_cons] at hline ih
          simp only [List.filterMap_cons, Cell.glyph?, List.mem_cons]
          rcases hline with rfl | hothers
          · rcases List.mem_cons.mp hchar with hfirst | hhead
            · exact .inr (.inl hfirst)
            · exact (ih (.inl rfl) hhead).imp_right .inr
          · exact (ih (.inr hothers) hchar).imp_right .inr
      | fullBreak =>
          simp only [linesOfCells, List.mem_cons] at hline
          rcases hline with rfl | hothers
          · simp at hchar
          · exact ih hothers hchar
      | hardBreak room =>
          simp only [linesOfCells, List.mem_cons] at hline
          rcases hline with rfl | hothers
          · left
            cases padded with
            | true => exact List.eq_of_mem_replicate hchar
            | false => simp at hchar
          · exact ih hothers hchar

/-- What cells write where there are no codes and no padding. -/
def plainText (cells : List Cell) : Text :=
  (cells.map (Cell.fit false)).flatMap (Cell.written id '\n')

@[simp] theorem plainText_nil : plainText [] = [] := rfl

@[simp] theorem plainText_append (first second : List Cell) :
    plainText (first ++ second) = plainText first ++ plainText second := by
  simp [plainText]

@[simp] theorem plainText_glyph (char : Char) (cells : List Cell) :
    plainText (.glyph char :: cells) = char :: plainText cells := rfl

@[simp] theorem plainText_fullBreak (cells : List Cell) :
    plainText (.fullBreak :: cells) = '\n' :: plainText cells := rfl

@[simp] theorem plainText_hardBreak (room : Nat) (cells : List Cell) :
    plainText (.hardBreak room :: cells) = '\n' :: plainText cells := rfl

theorem filter_plainText (cells : List Cell) :
    (plainText cells).filter (· != '\n') =
      (cells.filterMap Cell.glyph?).filter (· != '\n') := by
  induction cells with
  | nil => rfl
  | cons cell rest ih =>
      rw [List.filterMap_cons]
      cases cell with
      | glyph char => simp [Cell.glyph?, List.filter_cons, ih]
      | fullBreak => simp [Cell.glyph?, ih]
      | hardBreak room => simp [Cell.glyph?, ih]

theorem splitOn_plainText {cells : List Cell}
    (hglyph : '\n' ∉ cells.filterMap Cell.glyph?) :
    (plainText cells).splitOn '\n' = linesOfCells false cells := by
  rw [plainText, splitOn_written (by rwa [filterMap_glyph?_map_fit]),
    linesOfCells_map_fit]

/-! ## Characters and columns of a layout -/

namespace Position

theorem filterMap_glyph?_layOut (width : Nat) (position : Position)
    (text : Text) :
    (layOut width position text).filterMap Cell.glyph? =
      text.filter (· != '\n') := by
  induction text generalizing position with
  | nil => rfl
  | cons char rest ih =>
      simp only [layOut, List.filterMap_append, ih]
      unfold cells
      split
      next hnewline =>
        split <;> simp [hnewline, Cell.glyph?]
      next hletter =>
        split <;> simp [hletter, Cell.glyph?]

theorem layOut_map {change : Char → Char}
    (hchange : ∀ char, change char = '\n' ↔ char = '\n')
    (width : Nat) (position : Position) (text : Text) :
    layOut width position (text.map change) =
        (layOut width position text).map (Cell.mapGlyph change) ∧
      position.after width (text.map change) = position.after width text := by
  induction text generalizing position with
  | nil => exact ⟨rfl, rfl⟩
  | cons char rest ih =>
      have hnext :
          position.next width (change char) = position.next width char := by
        simp only [next, hchange]
      have hcells :
          position.cells width (change char) =
            (position.cells width char).map (Cell.mapGlyph change) := by
        unfold cells
        simp only [hchange]
        split
        · split <;> rfl
        · split <;> rfl
      have hrest := ih (position.next width char)
      constructor
      · simp only [List.map_cons, layOut, hcells, hnext, List.map_append]
        rw [hrest.1]
      · simp only [after, List.map_cons, List.foldl_cons, hnext]
        exact hrest.2

theorem after_column_le (width : Nat) (position : Position) (text : Text) :
    (position.after width text).column ≤ position.column + text.length := by
  induction text generalizing position with
  | nil => exact Nat.le_refl _
  | cons char rest ih =>
      have hstep :
          (position.next width char).column ≤ position.column + 1 := by
        unfold next
        split
        · split <;> simp
        · split <;> simp
      have hrest := ih (position.next width char)
      simp only [after, List.foldl_cons, List.length_cons] at hrest ⊢
      omega

theorem next_column_lt {width : Nat} {position : Position}
    (hcolumn : position.column < width) (char : Char) :
    (position.next width char).column < width := by
  unfold next
  split
  · split
    · exact hcolumn
    · exact Nat.lt_of_le_of_lt (Nat.zero_le _) hcolumn
  · split
    · exact Nat.lt_of_le_of_lt (Nat.zero_le _) hcolumn
    next hroom =>
      have hwidth : 0 < width := Nat.lt_of_le_of_lt (Nat.zero_le _) hcolumn
      simp only [hwidth, true_and, Nat.not_le] at hroom
      exact hroom

theorem after_column_lt {width : Nat} {position : Position}
    (hcolumn : position.column < width) (text : Text) :
    (position.after width text).column < width := by
  induction text generalizing position with
  | nil => exact hcolumn
  | cons char rest ih => exact ih (next_column_lt hcolumn char)

end Position

/-! ## Continuing at a cursor -/

/-- A width is read as a signed word when it is compared with a column. -/
theorem toInt_toInt64_cases (width : UInt64) :
    (width.toNat < 2 ^ 63 ∧ width.toInt64.toInt = width.toNat) ∨
      (2 ^ 63 ≤ width.toNat ∧
        width.toInt64.toInt = width.toNat - 2 ^ 64) := by
  have hword : width.toInt64.toInt = width.toBitVec.toInt := rfl
  have hnat : width.toBitVec.toNat = width.toNat := rfl
  rw [hword, BitVec.toInt_eq_toNat_cond, hnat]
  split
  · left
    omega
  · right
    omega

namespace Cursor

/-- A line is full at or past the width, and for a width that is no signed word
at or past the negative number that is read for it. -/
theorem overflows_iff_cases (width : UInt64) (cursor : Cursor) :
    cursor.overflows width = true ↔
      (0 < width.toNat ∧ (width.toNat : Int) ≤ cursor.column.toInt) ∨
        (2 ^ 63 ≤ width.toNat ∧
          (width.toNat : Int) - 2 ^ 64 ≤ cursor.column.toInt) := by
  have hcompared :
      cursor.overflows width = true ↔
        0 < width.toNat ∧ width.toInt64.toInt ≤ cursor.column.toInt := by
    simp only [overflows, Bool.and_eq_true, decide_eq_true_eq,
      Int64.le_iff_toInt_le, UInt64.lt_iff_toNat_lt]
    rfl
  have hcolumn : cursor.column.toInt < 2 ^ 63 := cursor.column.toInt_lt
  rw [hcompared]
  rcases toInt_toInt64_cases width with ⟨hwidth, hword⟩ | ⟨hwidth, hword⟩
  · rw [hword]
    omega
  · rw [hword]
    omega

theorem overflows_iff {width : UInt64} (hwidth : width.toNat < 2 ^ 63)
    (cursor : Cursor) :
    cursor.overflows width = true ↔
      0 < width.toNat ∧ (width.toNat : Int) ≤ cursor.column.toInt := by
  rw [overflows_iff_cases]
  omega

theorem le_column_of_overflows {width : UInt64}
    (hwidth : width.toNat < 2 ^ 63) {cursor : Cursor}
    (hover : cursor.overflows width = true) :
    width.toNat ≤ cursor.column.toNatClampNeg := by
  have hcolumn := ((overflows_iff hwidth cursor).mp hover).2
  have hclamp : cursor.column.toInt.toNat = cursor.column.toNatClampNeg :=
    Int64.toNat_toInt cursor.column
  omega

theorem position_of_overflows {width : UInt64} {cursor : Cursor}
    (hover : cursor.overflows width = true) :
    cursor.position width = ⟨0, true⟩ := by
  simp [position, hover]

theorem position_of_fits {width : UInt64} {cursor : Cursor}
    (hfits : cursor.overflows width = false) :
    cursor.position width = ⟨cursor.column.toNatClampNeg, cursor.filled⟩ := by
  simp [position, hfits]

/-- A line that is full already is broken first. -/
theorem spanCells_of_overflows {width : UInt64} {cursor : Cursor}
    (hover : cursor.overflows width = true) (text : Text) :
    spanCells width cursor text =
      .fullBreak :: Position.layOut width.toNat ⟨0, true⟩ text := by
  simp [spanCells, hover, position_of_overflows]

theorem spanCells_of_fits {width : UInt64} {cursor : Cursor}
    (hfits : cursor.overflows width = false) (text : Text) :
    spanCells width cursor text =
      Position.layOut width.toNat
        ⟨cursor.column.toNatClampNeg, cursor.filled⟩ text := by
  simp [spanCells, hfits, position_of_fits]

theorem position_column_lt {width : UInt64} (hwidth : width.toNat < 2 ^ 63)
    (hpositive : 0 < width.toNat) (cursor : Cursor) :
    (cursor.position width).column < width.toNat := by
  unfold position
  split
  next => exact hpositive
  next hfits =>
    rw [overflows_iff hwidth] at hfits
    have hcolumn : cursor.column.toInt < width.toNat :=
      Int.not_le.mp fun hle => hfits ⟨hpositive, hle⟩
    have hclamp : cursor.column.toInt.toNat = cursor.column.toNatClampNeg :=
      Int64.toNat_toInt cursor.column
    show cursor.column.toNatClampNeg < width.toNat
    omega

theorem position_column_le (width : UInt64) (cursor : Cursor) :
    (cursor.position width).column ≤ cursor.column.toNatClampNeg := by
  unfold position
  split
  · exact Nat.zero_le _
  · exact Nat.le_refl _

/-- A cursor made of a position that is within the line gives the position
back, and does not overflow. -/
theorem position_ofPosition {width : UInt64} (hwidth : width.toNat < 2 ^ 63)
    {position : Position} (hword : position.column < 2 ^ 63)
    (hshort : 0 < width.toNat → position.column < width.toNat) :
    (ofPosition position).overflows width = false ∧
      (ofPosition position).position width = position := by
  have hcolumn :
      (ofPosition position).column.toInt = position.column :=
    Int64.toInt_ofNat_of_lt hword
  have hfits : (ofPosition position).overflows width = false := by
    rw [Bool.eq_false_iff, ne_eq, overflows_iff hwidth, hcolumn]
    rintro ⟨hpositive, hle⟩
    have := hshort hpositive
    omega
  have hclamp :
      (ofPosition position).column.toNatClampNeg = position.column :=
    Int64.toNatClampNeg_ofNat_of_lt hword
  refine ⟨hfits, ?_⟩
  rw [Cursor.position, hfits, hclamp]
  rfl

@[simp] theorem after_nil (width : UInt64) (cursor : Cursor) :
    cursor.after width [] = cursor := rfl

theorem after_of_ne_nil {text : Text} (htext : text ≠ []) (width : UInt64)
    (cursor : Cursor) :
    cursor.after width text =
      ofPosition ((cursor.position width).after width.toNat text) := by
  simp [after, htext]

theorem after_position_bounds {width : UInt64}
    (hwidth : width.toNat < 2 ^ 63) {cursor : Cursor} {text : Text}
    (hbound :
      width.toNat = 0 →
        cursor.column.toNatClampNeg + text.length < 2 ^ 63) :
    let position := (cursor.position width).after width.toNat text
    position.column < 2 ^ 63 ∧
      (0 < width.toNat → position.column < width.toNat) := by
  intro position
  have hshort : 0 < width.toNat → position.column < width.toNat := by
    intro hpositive
    exact Position.after_column_lt
      (position_column_lt hwidth hpositive cursor) text
  refine ⟨?_, hshort⟩
  by_cases hzero : width.toNat = 0
  · have hgrow :=
      Position.after_column_le width.toNat (cursor.position width) text
    have hstart := position_column_le width cursor
    have hlimit := hbound hzero
    simp only [position]
    omega
  · have hless := hshort (Nat.pos_of_ne_zero hzero)
    omega

theorem position_after {width : UInt64} (hwidth : width.toNat < 2 ^ 63)
    {cursor : Cursor} {text : Text} (htext : text ≠ [])
    (hbound :
      width.toNat = 0 →
        cursor.column.toNatClampNeg + text.length < 2 ^ 63) :
    (cursor.after width text).overflows width = false ∧
      (cursor.after width text).position width =
        (cursor.position width).after width.toNat text := by
  rw [after_of_ne_nil htext]
  have hposition := after_position_bounds hwidth hbound
  exact position_ofPosition hwidth hposition.1 hposition.2

theorem after_append {width : UInt64} (hwidth : width.toNat < 2 ^ 63)
    {cursor : Cursor} {first : Text}
    (hbound :
      width.toNat = 0 →
        cursor.column.toNatClampNeg + first.length < 2 ^ 63)
    (second : Text) :
    cursor.after width (first ++ second) =
      (cursor.after width first).after width second := by
  by_cases hfirst : first = []
  · subst first
    rfl
  · by_cases hsecond : second = []
    · subst second
      simp
    · rw [after_of_ne_nil (by simp [hfirst]), after_of_ne_nil hsecond,
        (position_after hwidth hfirst hbound).2, Position.after_append]

/-- The cells of a text that starts at a cursor.  A text without characters has
none, not even the break of a full line. -/
def cells (width : UInt64) (cursor : Cursor) (text : Text) : List Cell :=
  if text.isEmpty then [] else spanCells width cursor text

@[simp] theorem cells_nil (width : UInt64) (cursor : Cursor) :
    cursor.cells width [] = [] := rfl

theorem cells_of_ne_nil {text : Text} (htext : text ≠ []) (width : UInt64)
    (cursor : Cursor) :
    cursor.cells width text = spanCells width cursor text := by
  simp [cells, htext]

theorem cells_append {width : UInt64} (hwidth : width.toNat < 2 ^ 63)
    {cursor : Cursor} {first : Text}
    (hbound :
      width.toNat = 0 →
        cursor.column.toNatClampNeg + first.length < 2 ^ 63)
    (second : Text) :
    cursor.cells width (first ++ second) =
      cursor.cells width first ++
        (cursor.after width first).cells width second := by
  by_cases hfirst : first = []
  · subst first
    rfl
  · by_cases hsecond : second = []
    · subst second
      simp
    · have hseam := position_after hwidth hfirst hbound
      rw [cells_of_ne_nil (by simp [hfirst]), cells_of_ne_nil hfirst,
        cells_of_ne_nil hsecond]
      unfold spanCells
      rw [hseam.1, hseam.2, Position.layOut_append]
      simp

theorem filterMap_glyph?_cells (width : UInt64) (cursor : Cursor)
    (text : Text) :
    (cursor.cells width text).filterMap Cell.glyph? =
      text.filter (· != '\n') := by
  by_cases htext : text = []
  · subst text
    rfl
  · rw [cells_of_ne_nil htext]
    unfold spanCells
    rw [List.filterMap_append, Position.filterMap_glyph?_layOut]
    split <;> simp [Cell.glyph?]

theorem newline_not_mem_glyphs (width : UInt64) (cursor : Cursor)
    (text : Text) :
    '\n' ∉ (cursor.cells width text).filterMap Cell.glyph? := by
  rw [filterMap_glyph?_cells]
  simp

theorem after_column_clamp_le {width : UInt64}
    (hwidth : width.toNat < 2 ^ 63) {cursor : Cursor} {text : Text}
    (hbound :
      width.toNat = 0 →
        cursor.column.toNatClampNeg + text.length < 2 ^ 63) :
    (cursor.after width text).column.toNatClampNeg ≤
      cursor.column.toNatClampNeg + text.length := by
  by_cases htext : text = []
  · subst text
    simp
  · have hposition := after_position_bounds hwidth hbound
    have hgrow :=
      Position.after_column_le width.toNat (cursor.position width) text
    have hstart := position_column_le width cursor
    rw [after_of_ne_nil htext]
    simp only [ofPosition]
    rw [Int64.toNatClampNeg_ofNat_of_lt hposition.1]
    omega

/-- Where a text fits behind the cursor with more behind it, the text fits alone,
and the rest fits behind the text. -/
theorem bounds_of_add {width : UInt64} (hwidth : width.toNat < 2 ^ 63)
    {cursor : Cursor} {text : Text} {count : Nat}
    (hbound :
      width.toNat = 0 →
        cursor.column.toNatClampNeg + (text.length + count) < 2 ^ 63) :
    (width.toNat = 0 →
        cursor.column.toNatClampNeg + text.length < 2 ^ 63) ∧
      (width.toNat = 0 →
        (cursor.after width text).column.toNatClampNeg + count < 2 ^ 63) := by
  have hfirst :
      width.toNat = 0 →
        cursor.column.toNatClampNeg + text.length < 2 ^ 63 := by
    omega
  have hgrow := after_column_clamp_le hwidth hfirst
  refine ⟨hfirst, ?_⟩
  intro hzero
  have := hbound hzero
  omega

end Cursor

/-! ## Spans one after another -/

namespace Span

/-- What `write` makes of each span, when every span starts where the one before
has ended. -/
def flow {α : Type} (width : UInt64) (write : Cursor → Span → List α) :
    Cursor → List Span → List α
  | _, [] => []
  | cursor, span :: rest =>
      write cursor span ++ flow width write (cursor.after width span.text) rest

/-- The cells of a span.  Room is left before a newline if the codes of the
span write anything. -/
def cells (configuration : Configuration) (cursor : Cursor) (span : Span) :
    List Cell :=
  (cursor.cells configuration.width span.text).map
    (Cell.fit (span.style.codes configuration.depth).isStyled)

theorem flow_congr {α : Type} (width : UInt64)
    {write write' : Cursor → Span → List α} (cursor : Cursor)
    {spans : List Span}
    (hwrite :
      ∀ span ∈ spans, ∀ cursor, write cursor span = write' cursor span) :
    flow width write cursor spans = flow width write' cursor spans := by
  induction spans generalizing cursor with
  | nil => rfl
  | cons span rest ih =>
      simp only [flow]
      rw [hwrite span List.mem_cons_self cursor,
        ih _ fun other hother => hwrite other (List.mem_cons_of_mem _ hother)]

theorem flow_map {α β : Type} (width : UInt64) (change : α → β)
    (write : Cursor → Span → List α) (cursor : Cursor) (spans : List Span) :
    (flow width write cursor spans).map change =
      flow width (fun cursor span => (write cursor span).map change) cursor
        spans := by
  induction spans generalizing cursor with
  | nil => rfl
  | cons span rest ih => simp [flow, ih]

theorem flow_flatMap {α β : Type} (width : UInt64) (change : α → List β)
    (write : Cursor → Span → List α) (cursor : Cursor) (spans : List Span) :
    (flow width write cursor spans).flatMap change =
      flow width (fun cursor span => (write cursor span).flatMap change) cursor
        spans := by
  induction spans generalizing cursor with
  | nil => rfl
  | cons span rest ih => simp [flow, ih]

/-- Texts laid out one after another are laid out like one text. -/
theorem flow_cells_eq {width : UInt64} (hwidth : width.toNat < 2 ^ 63)
    (cursor : Cursor) {spans : List Span}
    (hbound :
      width.toNat = 0 →
        cursor.column.toNatClampNeg + (spans.flatMap text).length < 2 ^ 63) :
    flow width (fun cursor span => cursor.cells width span.text) cursor spans =
        cursor.cells width (spans.flatMap text) ∧
      spans.foldl (fun cursor span => cursor.after width span.text) cursor =
        cursor.after width (spans.flatMap text) := by
  induction spans generalizing cursor with
  | nil => exact ⟨rfl, rfl⟩
  | cons span rest ih =>
      simp only [List.flatMap_cons, List.length_append] at hbound
      obtain ⟨hfirst, hbehind⟩ := Cursor.bounds_of_add hwidth hbound
      have hrest := ih (cursor.after width span.text) hbehind
      simp only [flow, List.flatMap_cons, List.foldl_cons]
      rw [Cursor.cells_append hwidth hfirst, Cursor.after_append hwidth hfirst,
        hrest.1, hrest.2]
      exact ⟨rfl, rfl⟩

end Span

theorem wrapSpan_eq_lines (width : UInt64) (codes : Codes) (cursor : Cursor)
    {text : Text} (htext : text ≠ []) :
    wrapSpan width codes cursor text =
      ['\n'].intercalate
        ((linesOfCells true
          ((cursor.cells width text).map (Cell.fit codes.isStyled))).map
            codes.around) := by
  rw [linesOfCells_map_fit, Cursor.cells_of_ne_nil htext]
  simp [wrapSpan, htext, writeLines]

theorem Codes.around_of_not_styled {codes : Codes}
    (hcodes : codes.isStyled = false) :
    codes.around = id := by
  simp only [Codes.isStyled, Bool.or_eq_false_iff, Bool.not_eq_false',
    List.isEmpty_iff] at hcodes
  funext text
  by_cases htext : text = []
  · simp [Codes.around, htext]
  · simp [Codes.around, htext, hcodes.1, hcodes.2]

theorem wrapSpan_of_not_styled {codes : Codes}
    (hcodes : codes.isStyled = false) (width : UInt64) (cursor : Cursor)
    (text : Text) :
    wrapSpan width codes cursor text =
      plainText (cursor.cells width text) := by
  by_cases htext : text = []
  · subst text
    rfl
  · rw [wrapSpan_eq_lines width codes cursor htext, hcodes,
      Codes.around_of_not_styled hcodes, plainText, ← intercalate_linesOfCells]
    simp

theorem wrapSpan_eq_writeLines (width : UInt64) (codes : Codes)
    (cursor : Cursor) (text : Text) :
    wrapSpan width codes cursor text =
      writeLines codes (cursor.cells width text) := by
  by_cases htext : text = []
  · subst text
    rfl
  · rw [Cursor.cells_of_ne_nil htext]
    simp [wrapSpan, htext]

/-- The lines of an output without codes. -/
theorem splitOn_wrapSpan_of_not_styled {codes : Codes}
    (hcodes : codes.isStyled = false) (width : UInt64) (cursor : Cursor)
    (text : Text) :
    (wrapSpan width codes cursor text).splitOn '\n' =
      linesOfCells false (cursor.cells width text) := by
  rw [wrapSpan_of_not_styled hcodes,
    splitOn_plainText (cursor.newline_not_mem_glyphs width text)]

namespace Formatter

theorem wrapSpans_fst (configuration : Configuration) (cursor : Cursor)
    (spans : List Span) :
    (wrapSpans configuration cursor spans).1 =
      Span.flow configuration.width
        (fun cursor span =>
          wrapSpan configuration.width
            (span.style.codes configuration.depth) cursor span.text)
        cursor spans := by
  induction spans generalizing cursor with
  | nil => rfl
  | cons span rest ih => simp [wrapSpans, Span.flow, ih]

theorem wrapSpans_snd (configuration : Configuration) (cursor : Cursor)
    (spans : List Span) :
    (wrapSpans configuration cursor spans).2 =
      spans.foldl
        (fun cursor span => cursor.after configuration.width span.text)
        cursor := by
  induction spans generalizing cursor with
  | nil => rfl
  | cons span rest ih => simp [wrapSpans, ih]

end Formatter

end TerminalMarkup
