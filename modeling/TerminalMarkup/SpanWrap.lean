import TerminalMarkup.StyleCodes

/-!
# Wrapping of styled spans

A text is laid out on lines of a given width and each line is put between the
codes of its style.  A newline right after a full line is absorbed.  Columns and
widths are compared as signed words of 64 bits.
-/

namespace TerminalMarkup

inductive Cell
  | glyph (char : Char)
  /-- The break after a full line. -/
  | fullBreak
  /-- The break of a newline, with the number of columns left empty. -/
  | hardBreak (room : Nat)
deriving DecidableEq, Repr

/-- Where the next character goes, and whether a full line has just ended. -/
structure Position where
  column : Nat
  filled : Bool
deriving DecidableEq, Repr

namespace Position

def next (width : Nat) (position : Position) (char : Char) : Position :=
  if char = '\n' then
    if position.filled then { position with filled := false } else ⟨0, false⟩
  else if 0 < width ∧ width ≤ position.column + 1 then
    ⟨0, true⟩
  else
    ⟨position.column + 1, false⟩

def cells (width : Nat) (position : Position) (char : Char) : List Cell :=
  if char = '\n' then
    if position.filled then [] else [.hardBreak (width - position.column)]
  else if 0 < width ∧ width ≤ position.column + 1 then
    [.glyph char, .fullBreak]
  else
    [.glyph char]

def after (width : Nat) (position : Position) (text : Text) : Position :=
  text.foldl (next width) position

def layOut (width : Nat) : Position → Text → List Cell
  | _, [] => []
  | position, char :: rest =>
      position.cells width char ++ layOut width (position.next width char) rest

theorem after_append (width : Nat) (position : Position) (first second : Text) :
    position.after width (first ++ second) =
      (position.after width first).after width second := by
  simp [after]

theorem layOut_append (width : Nat) (position : Position)
    (first second : Text) :
    layOut width position (first ++ second) =
      layOut width position first ++
        layOut width (position.after width first) second := by
  induction first generalizing position with
  | nil => rfl
  | cons char rest ih =>
      simp only [List.cons_append, layOut, ih, List.append_assoc]
      rfl

end Position

/-- The lines of a list of cells; there is one more line than there are breaks.
If lines are padded, the room before a newline is filled with spaces. -/
def linesOfCells (padded : Bool) : List Cell → List Text
  | [] => [[]]
  | .glyph char :: rest =>
      (linesOfCells padded rest).modifyHead (char :: ·)
  | .fullBreak :: rest => [] :: linesOfCells padded rest
  | .hardBreak room :: rest =>
      (if padded then List.replicate room ' ' else []) ::
        linesOfCells padded rest

/-! ## Wrapped spans -/

/-- Where the output stands, and whether it has just ended a full line. -/
structure Cursor where
  column : Int64
  filled : Bool
deriving DecidableEq, Repr

namespace Cursor

/-- Whether the line is full before anything is put on it. -/
def overflows (width : UInt64) (cursor : Cursor) : Bool :=
  0 < width && width.toInt64 ≤ cursor.column

def position (width : UInt64) (cursor : Cursor) : Position :=
  if cursor.overflows width then
    ⟨0, true⟩
  else
    ⟨cursor.column.toNatClampNeg, cursor.filled⟩

def ofPosition (position : Position) : Cursor :=
  ⟨Int64.ofNat position.column, position.filled⟩

/-- The cursor after a text.  A text without characters leaves it alone. -/
def after (width : UInt64) (cursor : Cursor) (text : Text) : Cursor :=
  if text.isEmpty then
    cursor
  else
    ofPosition ((cursor.position width).after width.toNat text)

end Cursor

/-- The cells of a text that starts at a cursor. -/
def spanCells (width : UInt64) (cursor : Cursor) (text : Text) : List Cell :=
  (if cursor.overflows width then [.fullBreak] else []) ++
    (cursor.position width).layOut width.toNat text

def writeLines (codes : Codes) (cells : List Cell) : Text :=
  ['\n'].intercalate ((linesOfCells codes.isStyled cells).map codes.around)

def wrapSpan (width : UInt64) (codes : Codes) (cursor : Cursor) (text : Text) :
    Text :=
  if text.isEmpty then
    []
  else
    writeLines codes (spanCells width cursor text)

/-- Wrap a text on its own, at a column of a line that is not known to be full:
the output and the column after it. -/
def wrap (width : UInt64) (depth : ColorDepth) (style : Style) (column : Int64)
    (text : Text) : Text × Int64 :=
  let cursor : Cursor := ⟨column, false⟩
  (wrapSpan width (style.codes depth) cursor text,
    (cursor.after width text).column)

end TerminalMarkup
