import TerminalMarkup.Proofs.BackslashGuard
import TerminalMarkup.Proofs.LiteralText
import TerminalMarkup.Proofs.SpanFlow

/-!
# Output without codes

Without codes the tags of a text have no influence on its lines.  Lines are
broken as late as possible and nothing but absorbed newlines is lost; lines are
kept with their ends here, so that every newline is accounted for.  A wrapped
text has all its breaks in it and is wrapped again without change.
-/

namespace TerminalMarkup

theorem isStyled_codes_plain (style : Style) :
    (style.codes .plain).isStyled = false := rfl

theorem isStyled_codes_empty (depth : ColorDepth) :
    (Style.empty.codes depth).isStyled = false := by
  cases depth <;> decide

/-! ## Lines of no width -/

theorem Position.plainText_layOut_zero {position : Position}
    (hfilled : position.filled = false) (text : Text) :
    plainText (position.layOut 0 text) = text ∧
      (position.after 0 text).filled = false := by
  induction text generalizing position with
  | nil => exact ⟨rfl, hfilled⟩
  | cons char rest ih =>
      have hnext : (position.next 0 char).filled = false := by
        unfold next
        split <;> simp [hfilled]
      have hcells : plainText (position.cells 0 char) = [char] := by
        unfold cells
        split
        next hnewline => simp [hfilled, hnewline]
        next => simp
      have hrest := ih hnext
      constructor
      · rw [layOut, plainText_append, hcells, hrest.1]
        rfl
      · exact hrest.2

theorem wrapSpan_zero {codes : Codes} (hcodes : codes.isStyled = false)
    {cursor : Cursor} (hfilled : cursor.filled = false) (text : Text) :
    wrapSpan 0 codes cursor text = text ∧
      (cursor.after 0 text).filled = false := by
  rw [wrapSpan_of_not_styled hcodes]
  by_cases htext : text = []
  · subst text
    exact ⟨rfl, hfilled⟩
  · have hfits : cursor.overflows 0 = false := rfl
    have hposition := Cursor.position_of_fits hfits
    have hlayOut :=
      @Position.plainText_layOut_zero
        ⟨cursor.column.toNatClampNeg, cursor.filled⟩ hfilled text
    rw [Cursor.cells_of_ne_nil htext, Cursor.after_of_ne_nil htext,
      Cursor.spanCells_of_fits hfits, hposition]
    exact hlayOut

namespace Formatter

theorem wrapSpans_zero {configuration : Configuration}
    (hwidth : configuration.width = 0) {cursor : Cursor}
    (hfilled : cursor.filled = false) {spans : List Span}
    (hcodes :
      ∀ span ∈ spans,
        (span.style.codes configuration.depth).isStyled = false) :
    (wrapSpans configuration cursor spans).1 = spans.flatMap Span.text := by
  induction spans generalizing cursor with
  | nil => rfl
  | cons span rest ih =>
      have hspan :=
        wrapSpan_zero (hcodes span List.mem_cons_self) hfilled span.text
      have hrest :=
        ih hspan.2 fun other hother =>
          hcodes other (List.mem_cons_of_mem _ hother)
      simp only [wrapSpans, hwidth, hspan.1, hrest, List.flatMap_cons]

/-- Spans that write no codes are wrapped like one text. -/
theorem wrapSpans_of_not_styled {configuration : Configuration}
    (hwidth : configuration.width.toNat < 2 ^ 63)
    (cursor : Cursor) (spans : List Span)
    (hcodes :
      ∀ span ∈ spans,
        (span.style.codes configuration.depth).isStyled = false)
    (hbound :
      configuration.width.toNat = 0 →
        cursor.column.toNatClampNeg + (spans.flatMap Span.text).length <
          2 ^ 63) :
    wrapSpans configuration cursor spans =
      (wrapSpan configuration.width Codes.none cursor
          (spans.flatMap Span.text),
        cursor.after configuration.width (spans.flatMap Span.text)) := by
  have hcells := Span.flow_cells_eq hwidth cursor hbound
  have hwrite :
      ∀ span ∈ spans, ∀ cursor : Cursor,
        wrapSpan configuration.width (span.style.codes configuration.depth)
            cursor span.text =
          plainText (cursor.cells configuration.width span.text) :=
    fun span hspan cursor =>
      wrapSpan_of_not_styled (hcodes span hspan) _ cursor span.text
  apply Prod.ext
  · calc
      (wrapSpans configuration cursor spans).1 =
          plainText
            (Span.flow configuration.width
              (fun cursor span => cursor.cells configuration.width span.text)
              cursor spans) := by
            rw [wrapSpans_fst, Span.flow_congr _ cursor hwrite, plainText,
              Span.flow_map, Span.flow_flatMap]
            rfl
      _ = wrapSpan configuration.width Codes.none cursor
            (spans.flatMap Span.text) := by
            rw [hcells.1, wrapSpan_of_not_styled rfl]
  · rw [wrapSpans_snd, hcells.2]

/-- The output without codes is the literal text of the markup, wrapped in one
go under the empty style, and the column after it is the same. -/
theorem flow_plain (formatter : Formatter)
    (hdepth : formatter.configuration.depth = .plain)
    (hwidth : formatter.configuration.width.toNat < 2 ^ 63)
    (depth : ColorDepth) (column : Int64) (text : Text)
    (hbound : column.toNatClampNeg + text.length < 2 ^ 63) :
    let literal :=
      literalText formatter.styles (events (guardFinalBackslashes text))
    let wrapped :=
      wrap formatter.configuration.width depth .empty column literal
    formatter.flow column text =
      (restoreBackslashes wrapped.1, wrapped.2) := by
  intro literal wrapped
  have hlength : literal.length ≤ text.length := by
    rw [← length_guardFinalBackslashes text]
    exact (literalText_events_sublist _ _).length_le
  have hliteral :
      (formatter.spansOf (guardFinalBackslashes text)).flatMap Span.text =
        literal :=
    Directive.text_join_ofEvent _ _ _
  have hspans :=
    wrapSpans_of_not_styled hwidth ⟨column, false⟩
      (formatter.spansOf (guardFinalBackslashes text))
      (by
        intro span _
        rw [hdepth]
        exact isStyled_codes_plain span.style)
      (by
        intro _
        rw [hliteral]
        show column.toNatClampNeg + literal.length < 2 ^ 63
        omega)
  rw [hliteral] at hspans
  have hcodes :
      wrapSpan formatter.configuration.width (Style.empty.codes depth)
          ⟨column, false⟩ literal =
        wrapSpan formatter.configuration.width Codes.none
          ⟨column, false⟩ literal := by
    rw [wrapSpan_of_not_styled (isStyled_codes_empty depth),
      wrapSpan_of_not_styled rfl]
  simp only [flow, render, wrapped, wrap]
  rw [hspans, hcodes]

/-- The newline after a full line is absorbed across a closing tag. -/
theorem flow_plain_full_line :
    let formatter : Formatter :=
      { configuration := Configuration.plain.withWidth 4 }
    formatter.flow 0 "<bg=blue>abcd</>\nef".toList =
      ("abcd\nef".toList, 2) := by
  intro formatter
  have hplain :=
    flow_plain formatter rfl (by decide) .trueColor 0
      "<bg=blue>abcd</>\nef".toList (by decide)
  rw [hplain]
  decide +kernel

end Formatter

/-! ## Lines and their ends -/

/-- What ends a line: a newline of the text, the width, or the width directly in
front of a newline, which it absorbs. -/
inductive LineEnd
  | newline
  | full
  | absorbing
deriving DecidableEq, Repr

namespace LineEnd

/-- What a line end takes from the text. -/
def source : LineEnd → Text
  | newline | absorbing => ['\n']
  | full => []

/-- The break is made by the width, and not by a newline. -/
def isAutomatic : LineEnd → Bool
  | newline => false
  | full | absorbing => true

def absorbs : LineEnd → Bool
  | absorbing => true
  | newline | full => false

end LineEnd

structure EndedLine where
  content : Text
  ending : LineEnd
deriving DecidableEq, Repr

namespace EndedLine

/-- What a line and its end take from the text. -/
def source (line : EndedLine) : Text :=
  line.content ++ line.ending.source

/-- A line that starts at a column ends as it should in front of some text.  It
goes beyond the width only if it starts there, and then it is empty. -/
structure EndsAt (width start : Nat) (behind : Text) (line : EndedLine) :
    Prop where
  fits :
    start + line.content.length ≤ width ∨ line.content = [] ∧ width ≤ start
  automatic_iff :
    line.ending.isAutomatic = true ↔ width ≤ start + line.content.length
  absorbs_iff :
    line.ending.absorbs = true ↔
      width ≤ start + line.content.length ∧
        (line.ending.source ++ behind).head? = some '\n'

/-- The breaks of lines are the newlines of the text and the automatic ones; a
break that absorbs a newline is both. -/
theorem length_add_countP_absorbs (lines : List EndedLine) :
    lines.length + lines.countP (·.ending.absorbs) =
      (lines.flatMap (·.ending.source)).count '\n' +
        lines.countP (·.ending.isAutomatic) := by
  induction lines with
  | nil => rfl
  | cons line rest ih =>
      have hline :
          1 + (if line.ending.absorbs then 1 else 0) =
            line.ending.source.count '\n' +
              (if line.ending.isAutomatic then 1 else 0) := by
        cases line.ending <;> rfl
      simp only [List.length_cons, List.countP_cons, List.flatMap_cons,
        List.count_append]
      omega

end EndedLine

/-- The column at which a line starts: at zero, if there are lines before it. -/
def lineStart (start : Nat) (before : List EndedLine) : Nat :=
  if before.isEmpty then start else 0

/-! ## Broken texts -/

/-- A text that is broken into lines, the first of them from a column on: the
lines that are ended, and the last line, which has not reached the width. -/
inductive Broken (width : Nat) : Nat → Text → List EndedLine → Text → Prop
  | final {start : Nat} {line : Text} (hline : '\n' ∉ line)
      (hshort : start + line.length < width) : Broken width start line [] line
  | cons {start : Nat} (line : EndedLine) {behind last : Text}
      {others : List EndedLine} (hline : '\n' ∉ line.content)
      (hends : line.EndsAt width start behind)
      (hbehind : Broken width 0 behind others last) :
      Broken width start (line.source ++ behind) (line :: others) last

/-- The text behind a break, which absorbs a newline if the line was full. -/
def behindBreak (filled : Bool) (text : Text) : Text :=
  if filled = true ∧ text.head? = some '\n' then text.tail else text

namespace Broken

variable {width start : Nat} {text last : Text} {ended : List EndedLine}

theorem text_eq (hbroken : Broken width start text ended last) :
    text = ended.flatMap EndedLine.source ++ last := by
  induction hbroken with
  | final hline hshort => rfl
  | cons line hline hends _ ih => simp [← ih]

theorem last_lt (hbroken : Broken width start text ended last) :
    lineStart start ended + last.length < width := by
  induction hbroken with
  | final hline hshort => exact hshort
  | @cons _ line _ _ others _ _ _ ih =>
      cases others with
      | nil => exact ih
      | cons _ _ => exact ih

theorem endsAt (hbroken : Broken width start text ended last)
    {before after : List EndedLine} {line : EndedLine}
    (hended : ended = before ++ line :: after) :
    line.EndsAt width (lineStart start before)
      (after.flatMap EndedLine.source ++ last) := by
  induction hbroken generalizing before with
  | final hline hshort => simp at hended
  | @cons start first behind last others hline hends hbehind ih =>
      cases before with
      | nil =>
          obtain ⟨rfl, rfl⟩ : first = line ∧ others = after := by
            simpa using hended
          rw [← hbehind.text_eq]
          exact hends
      | cons head rest =>
          obtain ⟨rfl, hothers⟩ :
              first = head ∧ others = rest ++ line :: after := by
            simpa using hended
          have hstart : lineStart start (first :: rest) = lineStart 0 rest := by
            cases rest <;> rfl
          rw [hstart]
          exact ih hothers

/-- The lines hold no newline, so those of the text are at their ends. -/
theorem count_newline (hbroken : Broken width start text ended last) :
    text.count '\n' = (ended.flatMap (·.ending.source)).count '\n' := by
  induction hbroken with
  | final hline hshort => exact List.count_eq_zero_of_not_mem hline
  | cons line hline hends _ ih =>
      rw [List.count_append, ih, EndedLine.source, List.count_append,
        List.count_eq_zero_of_not_mem hline, Nat.zero_add, List.flatMap_cons,
        List.count_append]

/-- A line that starts at the width or beyond is ended before its first
character. -/
theorem head?_lines_of_le (hbroken : Broken width start text ended last)
    (hstart : width ≤ start) :
    (ended.map EndedLine.content ++ [last]).head? = some [] := by
  cases hbroken with
  | final hline hshort => omega
  | cons line hline hends hbehind =>
      have hempty : line.content = [] := by
        rw [← List.length_eq_zero_iff]
        rcases hends.fits with hfits | ⟨hnone, -⟩
        · omega
        · rw [hnone, List.length_nil]
      simp [hempty]

/-- One more character in front of the first line. -/
theorem cons_char {char : Char} (hchar : char ≠ '\n')
    (hroom : start + 1 < width)
    (hbroken : Broken width (start + 1) text ended last) :
    ∃ ended' last',
      Broken width start (char :: text) ended' last' ∧
        ended'.map EndedLine.content ++ [last'] =
          (ended.map EndedLine.content ++ [last]).modifyHead (char :: ·) := by
  cases hbroken with
  | final hline hshort =>
      refine ⟨[], char :: text, .final ?_ ?_, rfl⟩
      · simp [hchar.symm, hline]
      · rw [List.length_cons]
        omega
  | @cons _ line behind _ others hline hends hbehind =>
      obtain ⟨content, ending⟩ := line
      obtain ⟨hfits, hautomatic, habsorbs⟩ := hends
      have hused :
          start + (char :: content).length = start + 1 + content.length := by
        rw [List.length_cons]
        omega
      refine ⟨⟨char :: content, ending⟩ :: others, last,
        .cons ⟨char :: content, ending⟩ ?_ ⟨?_, ?_, ?_⟩ hbehind, rfl⟩
      · simp [hchar.symm, hline]
      · left
        have hwithin : start + 1 + content.length ≤ width :=
          hfits.resolve_right fun hover => by omega
        rwa [hused]
      · rwa [hused]
      · rwa [hused]

/-- A line that has reached the width in front of a text. -/
theorem cons_full {content : Text} (hline : '\n' ∉ content)
    (hfits : start + content.length ≤ width ∨ content = [] ∧ width ≤ start)
    (hfull : width ≤ start + content.length)
    (hbroken : Broken width 0 (behindBreak true text) ended last) :
    ∃ ending,
      Broken width start (content ++ text) (⟨content, ending⟩ :: ended)
        last := by
  by_cases hhead : text.head? = some '\n'
  · obtain ⟨rest, rfl⟩ := List.head?_eq_some_iff.mp hhead
    have hrest : behindBreak true ('\n' :: rest) = rest := by
      simp [behindBreak]
    have hends : EndedLine.EndsAt width start rest ⟨content, .absorbing⟩ :=
      ⟨hfits, iff_of_true rfl hfull, iff_of_true rfl ⟨hfull, rfl⟩⟩
    rw [hrest] at hbroken
    refine ⟨.absorbing, ?_⟩
    simpa [EndedLine.source, LineEnd.source] using
      Broken.cons ⟨content, .absorbing⟩ hline hends hbroken
  · have hrest : behindBreak true text = text := by
      simp [behindBreak, hhead]
    have hends : EndedLine.EndsAt width start text ⟨content, .full⟩ :=
      ⟨hfits, iff_of_true rfl hfull,
        iff_of_false Bool.false_ne_true fun habsorbs => hhead habsorbs.2⟩
    rw [hrest] at hbroken
    refine ⟨.full, ?_⟩
    simpa [EndedLine.source, LineEnd.source] using
      Broken.cons ⟨content, .full⟩ hline hends hbroken

/-- A newline where a line has not reached the width. -/
theorem cons_newline (hshort : start < width)
    (hbroken : Broken width 0 text ended last) :
    Broken width start ('\n' :: text) (⟨[], .newline⟩ :: ended) last := by
  have hopen : ¬width ≤ start + ([] : Text).length := by
    rw [List.length_nil]
    omega
  have hends : EndedLine.EndsAt width start text ⟨[], .newline⟩ :=
    ⟨.inl (Nat.le_of_not_le hopen), iff_of_false Bool.false_ne_true hopen,
      iff_of_false Bool.false_ne_true fun habsorbs => hopen habsorbs.1⟩
  exact .cons ⟨[], .newline⟩ List.not_mem_nil hends hbroken

end Broken

theorem Position.exists_broken {width : Nat} {position : Position}
    (hcolumn : position.column < width) (text : Text) :
    ∃ ended last,
      Broken width position.column (behindBreak position.filled text) ended
          last ∧
        linesOfCells false (position.layOut width text) =
          ended.map EndedLine.content ++ [last] := by
  -- A newline that is absorbed belongs to the line before, so it is left out here
  -- and taken up again where the break of that line is put in front.
  induction text generalizing position with
  | nil =>
      have hnothing : behindBreak position.filled [] = [] := by
        simp [behindBreak]
      rw [hnothing]
      exact ⟨[], [], .final List.not_mem_nil hcolumn, rfl⟩
  | cons char rest ih =>
      obtain ⟨ended, last, hbroken, hlines⟩ := ih (next_column_lt hcolumn char)
      rw [layOut]
      by_cases hnewline : char = '\n'
      · subst char
        by_cases hfilled : position.filled = true
        · simp only [next, cells, hfilled, if_true] at hbroken hlines ⊢
          exact ⟨ended, last, hbroken, hlines⟩
        · simp only [next, cells, hfilled, if_true, Bool.false_eq_true,
            if_false] at hbroken hlines ⊢
          refine ⟨⟨[], .newline⟩ :: ended, last,
            hbroken.cons_newline hcolumn, ?_⟩
          simp [linesOfCells, hlines]
      · have hkept :
            behindBreak position.filled (char :: rest) = char :: rest := by
          simp [behindBreak, hnewline]
        rw [hkept]
        by_cases hfull : 0 < width ∧ width ≤ position.column + 1
        · have hletter : '\n' ∉ [char] := by
            simpa using Ne.symm hnewline
          simp only [next, cells, hnewline, hfull, if_false, and_self,
            if_true] at hbroken hlines ⊢
          obtain ⟨ending, hline⟩ :=
            hbroken.cons_full hletter (.inl hcolumn) hfull.2
          refine ⟨⟨[char], ending⟩ :: ended, last, hline, ?_⟩
          simp [linesOfCells, hlines]
        · have hroom : position.column + 1 < width := by omega
          simp only [next, cells, hnewline, hfull, if_false] at hbroken hlines ⊢
          obtain ⟨ended', last', hline, hlines'⟩ :=
            hbroken.cons_char hnewline hroom
          refine ⟨ended', last', hline, ?_⟩
          simp [linesOfCells, hlines, hlines']

theorem Cursor.exists_broken {width : UInt64} (hwidth : width.toNat < 2 ^ 63)
    (hpositive : 0 < width.toNat) {cursor : Cursor}
    (hfilled : cursor.filled = false) {text : Text} (htext : text ≠ []) :
    ∃ ended last,
      Broken width.toNat cursor.column.toNatClampNeg text ended last ∧
        linesOfCells false (cursor.cells width text) =
          ended.map EndedLine.content ++ [last] := by
  rw [cells_of_ne_nil htext]
  have hcolumn := position_column_lt hwidth hpositive cursor
  cases hover : cursor.overflows width with
  | true =>
      have hstart := le_column_of_overflows hwidth hover
      rw [position_of_overflows hover] at hcolumn
      obtain ⟨ended, last, hbroken, hlines⟩ :=
        Position.exists_broken hcolumn text
      obtain ⟨ending, hleading⟩ :=
        hbroken.cons_full List.not_mem_nil (.inr ⟨rfl, hstart⟩) hstart
      refine ⟨⟨[], ending⟩ :: ended, last, hleading, ?_⟩
      rw [spanCells_of_overflows hover, linesOfCells, hlines]
      rfl
  | false =>
      have hkept : behindBreak cursor.filled text = text := by
        simp [behindBreak, hfilled]
      rw [position_of_fits hover] at hcolumn
      obtain ⟨ended, last, hbroken, hlines⟩ :=
        Position.exists_broken hcolumn text
      rw [spanCells_of_fits hover]
      rw [hkept] at hbroken
      exact ⟨ended, last, hbroken, hlines⟩

/-! ## Plain wrapping -/

theorem Text.length_splitOn (mark : Char) (text : Text) :
    (text.splitOn mark).length = text.count mark + 1 := by
  induction text with
  | nil => rfl
  | cons char rest ih =>
      rw [List.splitOn_cons_eq_if_modifyHead, List.count_cons]
      split
      next => simp [ih]
      next => simp [ih]

/-- Without codes the characters of a text are written as they are.  On lines of
a positive width the output consists of lines that end at a newline of the text
or else at the width, a leading break included, and of a last line that has not
reached the width.  So the newlines of the output are those of the text and the
automatic breaks, without the newlines that automatic breaks absorb. -/
theorem wrap_breaks_greedily {width : UInt64} (hwidth : width.toNat < 2 ^ 63)
    {style : Style} {depth : ColorDepth}
    (hcodes : (style.codes depth).isStyled = false) (column : Int64)
    {text : Text} (htext : text ≠ []) :
    let written := (wrap width depth style column text).1
    let start := column.toNatClampNeg
    (width = 0 → written = text) ∧
      (0 < width →
        written.filter (· != '\n') = text.filter (· != '\n') ∧
          ((width.toNat : Int) ≤ column.toInt →
            (written.splitOn '\n').head? = some []) ∧
          ∃ (ended : List EndedLine) (last : Text),
            written.splitOn '\n' = ended.map EndedLine.content ++ [last] ∧
              text = ended.flatMap EndedLine.source ++ last ∧
              (∀ before line after, ended = before ++ line :: after →
                line.EndsAt width.toNat (lineStart start before)
                  (after.flatMap EndedLine.source ++ last)) ∧
              lineStart start ended + last.length < width.toNat ∧
              written.count '\n' + ended.countP (·.ending.absorbs) =
                text.count '\n' + ended.countP (·.ending.isAutomatic)) := by
  intro written start
  let cursor : Cursor := ⟨column, false⟩
  have hfilled : cursor.filled = false := rfl
  constructor
  · intro hzero
    subst hzero
    exact (wrapSpan_zero hcodes hfilled text).1
  · intro hpositive
    have hwide : 0 < width.toNat := UInt64.lt_iff_toNat_lt.mp hpositive
    have hwritten : written = plainText (cursor.cells width text) :=
      wrapSpan_of_not_styled hcodes width cursor text
    obtain ⟨ended, last, hbroken, hlines⟩ :=
      Cursor.exists_broken hwidth hwide hfilled htext
    have hsplit :
        written.splitOn '\n' = ended.map EndedLine.content ++ [last] := by
      rw [← hlines]
      exact splitOn_wrapSpan_of_not_styled hcodes width cursor text
    refine ⟨?_, ?_, ended, last, hsplit, hbroken.text_eq,
      fun before line after => hbroken.endsAt, hbroken.last_lt, ?_⟩
    · rw [hwritten, filter_plainText, Cursor.filterMap_glyph?_cells,
        List.filter_filter]
      simp
    · intro hleading
      have hclamp : column.toInt.toNat = start := Int64.toNat_toInt column
      have hstart : width.toNat ≤ start := by omega
      rw [hsplit]
      exact hbroken.head?_lines_of_le hstart
    · have hbreaks := EndedLine.length_add_countP_absorbs ended
      have hcount := written.length_splitOn '\n'
      rw [hsplit, List.length_append, List.length_map,
        List.length_singleton] at hcount
      rw [hbroken.count_newline]
      omega

/-- The leading break and the second full line absorb a newline each. -/
theorem wrap_breaks_greedily_leading :
    let text := "\nabcdefgh\n\ni".toList
    let written := "\nabcd\nefgh\n\ni".toList
    text ≠ [] ∧
      (Style.empty.codes .trueColor).isStyled = false ∧
      (wrap 4 .trueColor .empty 4 text).1 = written ∧
      ∃ (ended : List EndedLine) (last : Text),
        ["", "abcd", "efgh", "", "i"].map String.toList =
            ended.map EndedLine.content ++ [last] ∧
          text = ended.flatMap EndedLine.source ++ last ∧
          4 + ended.countP (·.ending.absorbs) =
            3 + ended.countP (·.ending.isAutomatic) := by
  intro text written
  have htext : text ≠ [] := by
    decide
  have hcodes : (Style.empty.codes .trueColor).isStyled = false := by
    decide
  have hwritten : (wrap 4 .trueColor .empty 4 text).1 = written := by
    decide +kernel
  have hgreedy :=
    wrap_breaks_greedily (by decide : (4 : UInt64).toNat < 2 ^ 63) hcodes 4
      htext
  rw [hwritten] at hgreedy
  obtain ⟨ended, last, hlines, hsource, -, -, hcount⟩ :=
    (hgreedy.2 (by decide)).2.2
  exact ⟨htext, hcodes, hwritten, ended, last, hlines, hsource, hcount⟩

/-! ## Wrapping a wrapped text -/

namespace Position

/-- What one character has written is laid out as the character was. -/
theorem layOut_plainText_cells (width : Nat) (position : Position)
    (char : Char) :
    let written := plainText (position.cells width char)
    layOut width ⟨position.column, false⟩ written =
        position.cells width char ∧
      after width ⟨position.column, false⟩ written =
        ⟨(position.next width char).column, false⟩ := by
  intro written
  by_cases hnewline : char = '\n'
  · by_cases hfilled : position.filled = true
    · simp [written, cells, next, layOut, after, hnewline, hfilled]
    · simp [written, cells, next, layOut, after, hnewline, hfilled]
  · by_cases hfull : 0 < width ∧ width ≤ position.column + 1
    · simp [written, cells, next, layOut, after, hnewline, hfull]
    · simp [written, cells, next, layOut, after, hnewline, hfull]

theorem layOut_plainText_layOut (width : Nat) (position : Position)
    (text : Text) :
    let written := plainText (position.layOut width text)
    layOut width ⟨position.column, false⟩ written =
        position.layOut width text ∧
      after width ⟨position.column, false⟩ written =
        ⟨(position.after width text).column, false⟩ := by
  induction text generalizing position with
  | nil => exact ⟨rfl, rfl⟩
  | cons char rest ih =>
      have hchar := position.layOut_plainText_cells width char
      have hrest := ih (position.next width char)
      simp only [layOut, plainText_append, layOut_append, after_append,
        hchar.1, hchar.2, hrest.1, hrest.2, true_and]
      rfl

theorem plainText_layOut_ne_nil {width : Nat} {position : Position}
    (hfilled : position.filled = false) {text : Text} (htext : text ≠ []) :
    plainText (position.layOut width text) ≠ [] := by
  obtain ⟨char, rest, rfl⟩ := List.exists_cons_of_ne_nil htext
  rw [layOut, plainText_append]
  apply List.append_ne_nil_of_left_ne_nil
  unfold cells
  split
  · simp [hfilled]
  · split <;> simp

theorem layOut_filled_newline (width column : Nat) (rest : Text) :
    layOut width ⟨column, true⟩ ('\n' :: rest) =
        layOut width ⟨column, false⟩ rest ∧
      after width ⟨column, true⟩ ('\n' :: rest) =
        after width ⟨column, false⟩ rest :=
  ⟨rfl, rfl⟩

end Position

namespace Cursor

variable {cursor : Cursor}

theorem plainText_spanCells_ne_nil (hfilled : cursor.filled = false)
    (width : UInt64) {text : Text} (htext : text ≠ []) :
    plainText (spanCells width cursor text) ≠ [] := by
  cases hover : cursor.overflows width with
  | true => simp [spanCells_of_overflows hover]
  | false =>
      rw [spanCells_of_fits hover]
      exact Position.plainText_layOut_ne_nil hfilled htext

theorem spanCells_plainText (hfilled : cursor.filled = false) (width : UInt64)
    {text written : Text}
    (hwritten : written = plainText (spanCells width cursor text)) :
    spanCells width cursor written = spanCells width cursor text ∧
      ((cursor.position width).after width.toNat written).column =
        ((cursor.position width).after width.toNat text).column := by
  cases hover : cursor.overflows width with
  | true =>
      -- The second leading break absorbs the newline of the first.
      have hlayOut :=
        Position.layOut_plainText_layOut width.toNat ⟨0, true⟩ text
      rw [spanCells_of_overflows hover, plainText_fullBreak] at hwritten
      rw [spanCells_of_overflows hover, spanCells_of_overflows hover,
        position_of_overflows hover, hwritten,
        (Position.layOut_filled_newline _ _ _).1,
        (Position.layOut_filled_newline _ _ _).2, hlayOut.1, hlayOut.2]
      exact ⟨rfl, rfl⟩
  | false =>
      have hlayOut :=
        Position.layOut_plainText_layOut width.toNat
          ⟨cursor.column.toNatClampNeg, false⟩ text
      rw [spanCells_of_fits hover, hfilled] at hwritten
      rw [spanCells_of_fits hover, spanCells_of_fits hover,
        position_of_fits hover, hfilled, hwritten, hlayOut.1, hlayOut.2]
      exact ⟨rfl, rfl⟩

theorem cells_plainText (hfilled : cursor.filled = false) (width : UInt64)
    {text written : Text}
    (hwritten : written = plainText (cursor.cells width text)) :
    cursor.cells width written = cursor.cells width text ∧
      (cursor.after width written).column =
        (cursor.after width text).column := by
  by_cases htext : text = []
  · subst text
    subst written
    exact ⟨rfl, rfl⟩
  · rw [cells_of_ne_nil htext] at hwritten
    have hnonempty : written ≠ [] := by
      rw [hwritten]
      exact plainText_spanCells_ne_nil hfilled width htext
    have hagain := spanCells_plainText hfilled width hwritten
    rw [cells_of_ne_nil hnonempty, cells_of_ne_nil htext,
      after_of_ne_nil hnonempty, after_of_ne_nil htext]
    simp only [ofPosition, hagain.1, hagain.2, and_self]

end Cursor

/-- Wrapping the output of an unstyled run again, from the same column on, gives
the same output and ends at the same column, for every width. -/
theorem wrap_wrap_of_not_styled {style : Style} {depth : ColorDepth}
    (hcodes : (style.codes depth).isStyled = false) (width : UInt64)
    (column : Int64) (text : Text) :
    let wrapped := wrap width depth style column text
    wrap width depth style column wrapped.1 = wrapped := by
  intro wrapped
  let cursor : Cursor := ⟨column, false⟩
  have hfilled : cursor.filled = false := rfl
  have hwritten : wrapped.1 = plainText (cursor.cells width text) :=
    wrapSpan_of_not_styled hcodes width cursor text
  have hagain := Cursor.cells_plainText hfilled width hwritten
  apply Prod.ext
  · calc
      (wrap width depth style column wrapped.1).1 =
          plainText (cursor.cells width wrapped.1) :=
            wrapSpan_of_not_styled hcodes width cursor wrapped.1
      _ = wrapped.1 := by
            rw [hagain.1, hwritten]
  · exact hagain.2

/-- The line is broken first, full lines absorb newlines, and a blank line and a
final newline are kept. -/
theorem wrap_wrap_leading_break :
    let style : Style := { foreground := some "wrong".toList }
    let written := "\nabcd\nefgh\n\ni\n".toList
    (style.codes .trueColor).isStyled = false ∧
      wrap 4 .trueColor style 5 "\nabcdefgh\n\ni\n".toList = (written, 0) ∧
      wrap 4 .trueColor style 5 written = (written, 0) := by
  intro style written
  have hcodes : (style.codes .trueColor).isStyled = false := by
    decide +kernel
  have hwritten :
      wrap 4 .trueColor style 5 "\nabcdefgh\n\ni\n".toList = (written, 0) := by
    decide +kernel
  have hagain :=
    wrap_wrap_of_not_styled hcodes 4 5 "\nabcdefgh\n\ni\n".toList
  rw [hwritten] at hagain
  exact ⟨hcodes, hwritten, hagain⟩

end TerminalMarkup
