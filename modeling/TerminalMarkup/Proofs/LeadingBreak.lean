import TerminalMarkup.Proofs.PlainFlow

/-!
# The break before the first character

A column at or past the width breaks the line first.  The width is read as a
signed word for that comparison, so from `2 ^ 63` on it is negative and every
column from zero on breaks the line.
-/

namespace TerminalMarkup

theorem spanCells_cons_of_ne {char : Char} (hchar : char ≠ '\n')
    (width : UInt64) (cursor : Cursor) (rest : Text) :
    ∃ others,
      spanCells width cursor (char :: rest) =
        (if cursor.overflows width then [.fullBreak] else []) ++
          .glyph char :: others := by
  have hcells :
      ∃ others,
        (cursor.position width).cells width.toNat char =
          .glyph char :: others := by
    unfold Position.cells
    rw [if_neg hchar]
    split
    · exact ⟨[.fullBreak], rfl⟩
    · exact ⟨[], rfl⟩
  obtain ⟨others, hothers⟩ := hcells
  refine ⟨others ++ Position.layOut width.toNat
    ((cursor.position width).next width.toNat char) rest, ?_⟩
  rw [spanCells, Position.layOut, hothers, List.cons_append]

theorem writeLines_fullBreak (codes : Codes) (cells : List Cell) :
    writeLines codes (.fullBreak :: cells) =
      '\n' :: writeLines codes cells := by
  have hlines :
      (linesOfCells codes.isStyled cells).map codes.around ≠ [] := by
    simpa using linesOfCells_ne_nil codes.isStyled cells
  simp only [writeLines, linesOfCells, List.map_cons]
  rw [List.intercalate_cons_of_ne_nil hlines]
  rfl

theorem head?_writeLines_glyph (codes : Codes) (char : Char)
    (cells : List Cell) :
    (writeLines codes (.glyph char :: cells)).head? =
      (codes.opening ++ [char]).head? := by
  obtain ⟨line, lines, hlines⟩ :=
    List.exists_cons_of_ne_nil (linesOfCells_ne_nil codes.isStyled cells)
  have haround :
      codes.around (char :: line) =
        codes.opening ++ char :: (line ++ codes.closing) := by
    simp [Codes.around]
  simp only [writeLines, linesOfCells, hlines, List.modifyHead_cons,
    List.map_cons, haround]
  by_cases hothers : lines.map codes.around = []
  · simp [hothers]
  · rw [List.intercalate_cons_of_ne_nil hothers]
    simp

theorem Text.head?_append_ne {first second : Text} {char : Char}
    (hfirst : first.head? ≠ some char) (hsecond : second.head? ≠ some char) :
    (first ++ second).head? ≠ some char := by
  rw [List.head?_append, ne_eq, Option.or_eq_some_iff]
  rintro (hhead | ⟨-, hhead⟩)
  · exact hfirst hhead
  · exact hsecond hhead

theorem head?_graphicCode_ne_newline (parameters : List Nat) :
    (graphicCode parameters).head? ≠ some '\n' := by
  unfold graphicCode
  split <;> simp

theorem head?_linkCode (target : Text) :
    (linkCode target).head? = some '\x1b' := rfl

theorem Style.head?_opening_ne_newline (style : Style) (depth : ColorDepth) :
    (style.codes depth).opening.head? ≠ some '\n' := by
  have hgraphic := head?_graphicCode_ne_newline (style.setParameters depth)
  unfold codes
  split
  next =>
    cases style.link with
    | none => exact hgraphic
    | some target =>
        apply Text.head?_append_ne hgraphic
        simp [head?_linkCode]
  next => simp [Codes.none]

theorem head?_wrapSpan_eq_newline_iff {codes : Codes}
    (hcodes : codes.opening.head? ≠ some '\n') {text : Text}
    (htext : text ≠ []) (hhead : text.head? ≠ some '\n') (width : UInt64)
    (cursor : Cursor) :
    (wrapSpan width codes cursor text).head? = some '\n' ↔
      cursor.overflows width = true := by
  obtain ⟨char, rest, rfl⟩ := List.exists_cons_of_ne_nil htext
  have hchar : char ≠ '\n' := by
    simpa using hhead
  obtain ⟨others, hcells⟩ := spanCells_cons_of_ne hchar width cursor rest
  have hwritten :
      wrapSpan width codes cursor (char :: rest) =
        writeLines codes (spanCells width cursor (char :: rest)) := rfl
  rw [hwritten, hcells]
  by_cases hfull : cursor.overflows width = true
  · simp [hfull, writeLines_fullBreak]
  · have hfirst : (codes.opening ++ [char]).head? ≠ some '\n' :=
      Text.head?_append_ne hcodes (by simpa using hchar)
    simpa [hfull, head?_writeLines_glyph] using hfirst

theorem Position.layOut_of_fits {width : Nat} {position : Position}
    {text : Text} (hnewline : '\n' ∉ text)
    (hfits : position.column + text.length < width) :
    layOut width position text = text.map Cell.glyph := by
  induction text generalizing position with
  | nil => rfl
  | cons char rest ih =>
      simp only [List.mem_cons, not_or] at hnewline
      have hchar : char ≠ '\n' := fun heq => hnewline.1 heq.symm
      simp only [List.length_cons] at hfits
      have hroom : ¬(0 < width ∧ width ≤ position.column + 1) := by omega
      have hnext : position.next width char = ⟨position.column + 1, false⟩ := by
        simp [next, hchar, hroom]
      have hcells : position.cells width char = [.glyph char] := by
        simp [cells, hchar, hroom]
      have hrest : layOut width ⟨position.column + 1, false⟩ rest =
          rest.map Cell.glyph :=
        ih hnewline.2 (by
          show position.column + 1 + rest.length < width
          omega)
      rw [layOut, hcells, hnext, hrest]
      rfl

/-- A short text that writes no codes is written as it is from column zero,
behind the leading break if there is one. -/
theorem wrapSpan_of_fits {codes : Codes} (hcodes : codes.isStyled = false)
    {width : UInt64} {text : Text} (htext : text ≠ [])
    (hnewline : '\n' ∉ text) (hfits : text.length < width.toNat)
    (filled : Bool) :
    wrapSpan width codes ⟨0, filled⟩ text =
      (if (⟨0, filled⟩ : Cursor).overflows width then ['\n'] else []) ++
        text := by
  have hcolumn : ((⟨0, filled⟩ : Cursor).position width).column = 0 := by
    unfold Cursor.position
    split <;> rfl
  have hlayOut :
      ((⟨0, filled⟩ : Cursor).position width).layOut width.toNat text =
        text.map Cell.glyph :=
    Position.layOut_of_fits hnewline (by omega)
  have hglyphs : plainText (text.map Cell.glyph) = text := by
    rw [plainText, List.map_map, List.flatMap_map]
    exact List.flatMap_singleton' text
  rw [wrapSpan_of_not_styled hcodes, Cursor.cells_of_ne_nil htext, spanCells,
    hlayOut, plainText_append, hglyphs]
  split <;> rfl

/-! ## Whether the line is broken first -/

/-- The output begins with a newline if the column is at or past the width, as
it should, and otherwise just for a width from `2 ^ 63` on, at the columns that
are at or past the width less `2 ^ 64`.  So a short text without codes comes back
from column zero as it is for the widths that are signed words, and behind a
newline for all others. -/
theorem wrap_begins_with_newline_iff (width : UInt64) (depth : ColorDepth)
    (style : Style) (column : Int64) (text : Text) (htext : text ≠ [])
    (hhead : text.head? ≠ some '\n') :
    ((wrap width depth style column text).1.head? = some '\n' ↔
        (0 < width.toNat ∧ (width.toNat : Int) ≤ column.toInt) ∨
          (2 ^ 63 ≤ width.toNat ∧
            (width.toNat : Int) - 2 ^ 64 ≤ column.toInt)) ∧
      ((style.codes depth).isStyled = false → '\n' ∉ text →
        text.length < width.toNat →
        (wrap width depth style 0 text).1 =
          if width.toNat < 2 ^ 63 then text else '\n' :: text) := by
  constructor
  · have hbreak :=
      head?_wrapSpan_eq_newline_iff (style.head?_opening_ne_newline depth)
        htext hhead width ⟨column, false⟩
    exact hbreak.trans (Cursor.overflows_iff_cases width ⟨column, false⟩)
  · intro hcodes hnewline hfits
    have hwritten := wrapSpan_of_fits hcodes htext hnewline hfits false
    have hfull := Cursor.overflows_iff_cases width ⟨0, false⟩
    have hcolumn : (⟨0, false⟩ : Cursor).column.toInt = 0 := rfl
    have hword : width.toNat < 2 ^ 64 := width.toNat_lt
    rw [hcolumn] at hfull
    show wrapSpan width (style.codes depth) ⟨0, false⟩ text = _
    rw [hwritten]
    by_cases hwidth : width.toNat < 2 ^ 63
    · have hopen : ¬(⟨0, false⟩ : Cursor).overflows width = true := by
        rw [hfull]
        omega
      rw [if_neg hopen, if_pos hwidth]
      rfl
    · have hover : (⟨0, false⟩ : Cursor).overflows width = true := by
        rw [hfull]
        omega
      rw [if_pos hover, if_neg hwidth]
      rfl

/-- The largest width breaks the line before a text at column zero, and at the
column to the left of it. -/
theorem wrap_largest_width :
    (wrap 18446744073709551615 .trueColor .empty (-1) "ab".toList).1.head? =
        some '\n' ∧
      (wrap 18446744073709551615 .trueColor .empty 0 "ab".toList).1 =
        "\nab".toList := by
  have hbreak :=
    wrap_begins_with_newline_iff 18446744073709551615 .trueColor .empty (-1)
      "ab".toList (by decide) (by decide)
  have hshort := hbreak.2 (by decide) (by decide) (by decide)
  exact ⟨hbreak.1.mpr (.inr (by decide)), hshort⟩

/-- Column zero is not at or past the largest width, and still the line is
broken there. -/
theorem wrap_breaks_before_width :
    ¬((wrap 18446744073709551615 .trueColor .empty 0 "a".toList).1.head? =
          some '\n' ↔
        0 < (18446744073709551615 : UInt64).toNat ∧
          ((18446744073709551615 : UInt64).toNat : Int) ≤
            (0 : Int64).toInt) := by
  decide

end TerminalMarkup
