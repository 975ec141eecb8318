import TerminalMarkup.Proofs.BackslashGuard
import TerminalMarkup.Proofs.CodeReading
import TerminalMarkup.Proofs.SpanFlow

/-!
# Written directives

Placeholders become backslashes again in the output, after lines were broken and
codes written.  The output is the same as if they had been restored in the spans
already, and as if the text had never been guarded.
-/

namespace TerminalMarkup

theorem linesOfCells_map_mapGlyph {change : Char → Char}
    (hspace : change ' ' = ' ') (padded : Bool) (cells : List Cell) :
    linesOfCells padded (cells.map (Cell.mapGlyph change)) =
      (linesOfCells padded cells).map (·.map change) := by
  induction cells with
  | nil => rfl
  | cons cell rest ih =>
      cases cell with
      | glyph char =>
          simp only [List.map_cons, Cell.mapGlyph, linesOfCells, ih]
          cases linesOfCells padded rest <;> rfl
      | fullBreak =>
          simp only [List.map_cons, Cell.mapGlyph, linesOfCells, ih]
          rfl
      | hardBreak room =>
          simp only [List.map_cons, Cell.mapGlyph, linesOfCells, ih]
          cases padded <;> simp [hspace]

private theorem map_intercalate {α β : Type} (change : α → β) (mark : α)
    (lines : List (List α)) :
    ([mark].intercalate lines).map change =
      [change mark].intercalate (lines.map (·.map change)) := by
  induction lines with
  | nil => rfl
  | cons line rest ih =>
      cases rest with
      | nil => simp
      | cons next others =>
          simp only [List.map_cons, List.intercalate_cons_cons] at ih ⊢
          simp [ih]

theorem restoreBackslashes_append (first second : Text) :
    restoreBackslashes (first ++ second) =
      restoreBackslashes first ++ restoreBackslashes second :=
  List.map_append

@[simp] theorem restoreBackslashes_eq_nil_iff (text : Text) :
    restoreBackslashes text = [] ↔ text = [] :=
  List.map_eq_nil_iff

def Codes.restored (codes : Codes) : Codes :=
  ⟨restoreBackslashes codes.opening, restoreBackslashes codes.closing⟩

theorem Codes.isStyled_restored (codes : Codes) :
    codes.restored.isStyled = codes.isStyled := by
  simp [isStyled, restored, restoreBackslashes]

theorem Codes.restoreBackslashes_around (codes : Codes) (text : Text) :
    restoreBackslashes (codes.around text) =
      codes.restored.around (restoreBackslashes text) := by
  by_cases htext : text = []
  · subst text
    rfl
  · simp [around, htext, restored, restoreBackslashes_append]

/-! ## Spans -/

namespace Style

def restored (style : Style) : Style :=
  { style with link := style.link.map restoreBackslashes }

theorem restored_of_linkAvoids {style : Style}
    (hlink : style.LinkAvoids [placeholder]) : style.restored = style := by
  obtain ⟨foreground, background, link, effects⟩ := style
  cases link with
  | none => rfl
  | some target =>
      have htarget := (hlink target rfl).not_mem List.mem_cons_self
      simp [restored, restoreBackslashes_of_not_mem htarget]

theorem color?_restored (style : Style) (ground : Ground) :
    style.restored.color? ground = style.color? ground := by
  cases ground <;> rfl

theorem restoreBackslashes_graphicCode (parameters : List Nat) :
    restoreBackslashes (graphicCode parameters) = graphicCode parameters := by
  apply restoreBackslashes_of_not_mem
  intro hmem
  unfold graphicCode at hmem
  split at hmem
  · simp at hmem
  · simp only [List.mem_append] at hmem
    rcases hmem with (hopening | hparameters) | hclosing
    · exact absurd hopening (by decide)
    · rcases mem_parameterText hparameters with hdigit | hmark
      · exact absurd hdigit (by decide)
      · exact absurd hmark (by decide)
    · exact absurd hclosing (by decide)

theorem restoreBackslashes_linkCode (target : Text) :
    restoreBackslashes (linkCode target) =
      linkCode (restoreBackslashes target) := by
  rw [linkCode_eq, linkCode_eq, restoreBackslashes_eq_map]
  simp [restoreBackslashes_eq_map, restoreChar, placeholder]

theorem restored_codes (style : Style) (depth : ColorDepth) :
    (style.codes depth).restored = style.restored.codes depth := by
  have hset :
      style.restored.setParameters depth = style.setParameters depth := by
    simp only [setParameters, groundSetParameters, color?_restored]
    rfl
  have hunset :
      style.restored.unsetParameters = style.unsetParameters := by
    simp only [unsetParameters, groundUnsetParameters, color?_restored]
    rfl
  unfold codes
  rw [hset, hunset]
  by_cases hdepth : depth.emitsCodes = true
  · simp only [hdepth, if_true]
    cases hlink : style.link with
    | some target =>
        simp only [restored, hlink, Option.map_some, Codes.restored,
          restoreBackslashes_append, restoreBackslashes_graphicCode,
          restoreBackslashes_linkCode]
        rfl
    | none =>
        simp only [restored, hlink, Option.map_none, Codes.restored,
          restoreBackslashes_graphicCode]
  · simp only [hdepth]
    rfl

end Style

namespace Cursor

theorem spanCells_restored (width : UInt64) (cursor : Cursor) (text : Text) :
    spanCells width cursor (restoreBackslashes text) =
      (spanCells width cursor text).map (Cell.mapGlyph restoreChar) := by
  unfold spanCells
  rw [restoreBackslashes_eq_map,
    (Position.layOut_map restoreChar_eq_newline_iff _ _ _).1, List.map_append]
  split <;> rfl

theorem after_restored (width : UInt64) (cursor : Cursor) (text : Text) :
    cursor.after width (restoreBackslashes text) =
      cursor.after width text := by
  by_cases htext : text = []
  · subst text
    rfl
  · have hrestored : restoreBackslashes text ≠ [] := by
      simpa using htext
    rw [after_of_ne_nil hrestored, after_of_ne_nil htext,
      restoreBackslashes_eq_map,
      (Position.layOut_map restoreChar_eq_newline_iff _ _ _).2]

end Cursor

theorem restoreBackslashes_wrapSpan (width : UInt64) (codes : Codes)
    (cursor : Cursor) (text : Text) :
    restoreBackslashes (wrapSpan width codes cursor text) =
      wrapSpan width codes.restored cursor (restoreBackslashes text) := by
  by_cases htext : text = []
  · subst text
    rfl
  · have hnewline : restoreChar '\n' = '\n' := by decide
    have hspace : restoreChar ' ' = ' ' := by decide
    have haround :
        List.map restoreChar ∘ codes.around =
          codes.restored.around ∘ List.map restoreChar := by
      funext line
      exact codes.restoreBackslashes_around line
    simp only [wrapSpan, List.isEmpty_iff, htext,
      restoreBackslashes_eq_nil_iff, if_false, writeLines]
    rw [Codes.isStyled_restored, Cursor.spanCells_restored,
      linesOfCells_map_mapGlyph hspace, restoreBackslashes_eq_map,
      map_intercalate, hnewline, List.map_map, List.map_map, haround]

def Span.restored (span : Span) : Span :=
  ⟨restoreBackslashes span.text, span.style.restored⟩

namespace Formatter

theorem wrapSpans_map_restored (configuration : Configuration)
    (cursor : Cursor) (spans : List Span) :
    wrapSpans configuration cursor (spans.map Span.restored) =
      (restoreBackslashes (wrapSpans configuration cursor spans).1,
        (wrapSpans configuration cursor spans).2) := by
  induction spans generalizing cursor with
  | nil => rfl
  | cons span rest ih =>
      simp only [List.map_cons, wrapSpans, Span.restored,
        Cursor.after_restored, ← Style.restored_codes,
        ← restoreBackslashes_wrapSpan, restoreBackslashes_append]
      rw [ih]

/-- The spans that a marked-up text writes, with all backslashes in them. -/
def writtenSpans (formatter : Formatter) (text : Text) : List Span :=
  (formatter.spansOf (guardFinalBackslashes text)).map Span.restored

theorem flow_eq_wrapSpans (formatter : Formatter) (column : Int64)
    (text : Text) :
    formatter.flow column text =
      let (written, cursor) :=
        wrapSpans formatter.configuration ⟨column, false⟩
          (formatter.writtenSpans text)
      (written, cursor.column) := by
  simp only [flow, render, writtenSpans, wrapSpans_map_restored]

end Formatter

theorem Text.Avoids.restored {text : Text} {marks : List Char}
    (htext : text.Avoids marks) (hmarks : '\\' ∉ marks) :
    Text.Avoids (restoreBackslashes text) marks := by
  intro char hchar
  obtain ⟨source, hsource, rfl⟩ := List.mem_map.mp hchar
  split
  · exact hmarks
  · exact htext source hsource

theorem Text.Avoids.guarded {text : Text} {marks : List Char}
    (htext : text.Avoids marks) (hmarks : placeholder ∉ marks) :
    Text.Avoids (guardFinalBackslashes text) marks := by
  obtain ⟨front, count, -, hsplit, hguard⟩ :=
    exists_guardFinalBackslashes text
  rw [hguard]
  intro char hchar
  rcases List.mem_append.mp hchar with hfront | hrun
  · apply htext char
    rw [hsplit]
    exact List.mem_append_left _ hfront
  · rw [List.eq_of_mem_replicate hrun]
    exact hmarks

theorem Style.LinkAvoids.restored {style : Style} {marks : List Char}
    (hstyle : style.LinkAvoids marks) (hmarks : '\\' ∉ marks) :
    style.restored.LinkAvoids marks := by
  intro target htarget
  obtain ⟨source, hsource, rfl⟩ := Option.map_eq_some_iff.mp htarget
  exact (hstyle source hsource).restored hmarks

/-- What neither the named styles nor the text hold is neither in a written span
nor in its link. -/
theorem Formatter.avoids_of_mem_writtenSpans {formatter : Formatter}
    {text : Text} {marks : List Char}
    (htable : formatter.styles.LinksAvoid marks) (htext : text.Avoids marks)
    (hbackslash : '\\' ∉ marks) (hplaceholder : placeholder ∉ marks)
    {span : Span} (hspan : span ∈ formatter.writtenSpans text) :
    span.text.Avoids marks ∧ span.style.LinkAvoids marks := by
  obtain ⟨source, hsource, rfl⟩ := List.mem_map.mp hspan
  have hguarded := htext.guarded hplaceholder
  have hmarkup : source.text ⊆ guardFinalBackslashes text := by
    intro char hchar
    have hliteral :=
      Directive.text_join_ofEvent formatter.styles .empty
        (events (guardFinalBackslashes text))
    apply (literalText_events_sublist formatter.styles _).subset
    rw [← hliteral]
    exact List.mem_flatMap.mpr ⟨source, hsource, hchar⟩
  constructor
  · exact (hguarded.of_subset hmarkup).restored hbackslash
  · exact (linkAvoids_of_mem_spansOf htable hguarded hsource).restored
      hbackslash

/-! ## Restored directives -/

def StyleStack.restored (stack : StyleStack) : StyleStack :=
  ⟨stack.layers.map Style.restored⟩

theorem Style.restored_overlay (base top : Style) :
    (base.overlay top).restored = base.restored.overlay top.restored := by
  simp only [overlay, restored, Option.map_or]

theorem StyleStack.pop_restored (stack : StyleStack) :
    stack.restored.pop = stack.pop.restored := by
  simp [pop, restored]

theorem StyleStack.current_restored (stack : StyleStack) :
    stack.restored.current = stack.current.restored := by
  obtain ⟨layers⟩ := stack
  induction layers with
  | nil => rfl
  | cons layer rest ih =>
      simp only [current, restored, List.map_cons, List.foldr_cons] at ih ⊢
      rw [ih, Style.restored_overlay]

namespace Directive

def restored : Directive → Directive
  | print text => print (restoreBackslashes text)
  | enter style => enter style.restored
  | leave => leave

/-- What a directive prints. -/
def printed : Directive → Text
  | print text => text
  | enter _ => []
  | leave => []

/-- The styles in force after directives. -/
def stackAfter : StyleStack → List Directive → StyleStack
  | stack, [] => stack
  | stack, print _ :: rest => stackAfter stack rest
  | stack, enter style :: rest => stackAfter (stack.push style) rest
  | stack, leave :: rest => stackAfter stack.pop rest

theorem cons_print_cons_print (first second : Text) (rest : List Directive) :
    cons (print first) (cons (print second) rest) =
      cons (print (first ++ second)) rest := by
  cases rest with
  | nil => rfl
  | cons directive others =>
      cases directive with
      | print text => simp [cons]
      | enter style => rfl
      | leave => rfl

theorem join_cons (directive : Directive) (rest : List Directive) :
    join (directive :: rest) = cons directive (join rest) := rfl

theorem map_restored_cons (directive : Directive) (rest : List Directive) :
    (cons directive rest).map restored =
      cons directive.restored (rest.map restored) := by
  cases directive with
  | print text =>
      cases rest with
      | nil => rfl
      | cons next others =>
          cases next with
          | print following =>
              simp [cons, restored, restoreBackslashes_append]
          | enter style => rfl
          | leave => rfl
  | enter style => rfl
  | leave => rfl

theorem map_restored_join (directives : List Directive) :
    (join directives).map restored = join (directives.map restored) := by
  induction directives with
  | nil => rfl
  | cons directive rest ih =>
      rw [join_cons, map_restored_cons, ih, List.map_cons, join_cons]

theorem spans_map_restored (stack : StyleStack)
    (directives : List Directive) :
    spans stack.restored (directives.map restored) =
      (spans stack directives).map Span.restored := by
  induction directives generalizing stack with
  | nil => rfl
  | cons directive rest ih =>
      cases directive with
      | print text =>
          simp only [List.map_cons, restored, spans, ih,
            StyleStack.current_restored]
          rfl
      | enter style => exact ih (stack.push style)
      | leave =>
          simp only [List.map_cons, restored, spans, StyleStack.pop_restored,
            ih]

theorem stackAfter_map_restored (stack : StyleStack)
    (directives : List Directive) :
    stackAfter stack.restored (directives.map restored) =
      (stackAfter stack directives).restored := by
  induction directives generalizing stack with
  | nil => rfl
  | cons directive rest ih =>
      cases directive with
      | print text => exact ih stack
      | enter style => exact ih (stack.push style)
      | leave =>
          simp only [List.map_cons, restored, stackAfter,
            StyleStack.pop_restored, ih]

theorem flatMap_text_spans (stack : StyleStack)
    (directives : List Directive) :
    (spans stack directives).flatMap Span.text =
      directives.flatMap printed := by
  induction directives generalizing stack with
  | nil => rfl
  | cons directive rest ih =>
      cases directive with
      | print text => simp [spans, printed, ih]
      | enter style => simpa [spans, printed] using ih (stack.push style)
      | leave => simpa [spans, printed] using ih stack.pop

theorem flatMap_printed_cons (directive : Directive)
    (rest : List Directive) :
    (cons directive rest).flatMap printed =
      (directive :: rest).flatMap printed := by
  unfold cons
  split
  · simp [printed]
  · rfl

theorem flatMap_printed_join (directives : List Directive) :
    (join directives).flatMap printed = directives.flatMap printed := by
  induction directives with
  | nil => rfl
  | cons directive rest ih =>
      rw [join_cons, flatMap_printed_cons, List.flatMap_cons,
        List.flatMap_cons, ih]

end Directive

/-! ## Directives of events -/

namespace StyleTable

/-- What an event writes, with the backslashes restored. -/
def written (table : StyleTable) (event : Event) : Directive :=
  (Directive.ofEvent table event).restored

theorem written_text (table : StyleTable) (content : Text) :
    table.written (.text content) = .print (restoreBackslashes content) := rfl

theorem printed_written (table : StyleTable) (event : Event) :
    (table.written event).printed =
      restoreBackslashes (event.literal table) := by
  cases event with
  | text content => rfl
  | opening body =>
      simp only [written, Directive.ofEvent, Event.literal]
      cases table.resolve? body <;> rfl
  | closing body => rfl

theorem join_map_written_cons (table : StyleTable) (event : Event)
    (rest : List Event) :
    Directive.join ((event.cons rest).map table.written) =
      Directive.join ((event :: rest).map table.written) := by
  unfold Event.cons
  split
  next first second others =>
    simp only [List.map_cons, Directive.join_cons, written_text,
      restoreBackslashes_append, Directive.cons_print_cons_print]
  next => rfl

/-- Joined events write what the events write. -/
theorem join_map_written_joinTexts (table : StyleTable)
    (events : List Event) :
    Directive.join ((joinTexts events).map table.written) =
      Directive.join (events.map table.written) := by
  induction events with
  | nil => rfl
  | cons event rest ih =>
      rw [joinTexts_cons, join_map_written_cons, List.map_cons, List.map_cons,
        Directive.join_cons, Directive.join_cons, ih]

/-- There is nothing to restore in what an event without placeholders
writes. -/
theorem written_eq_ofEvent {table : StyleTable}
    (htable : table.LinksAvoid [placeholder]) {event : Event}
    (hevent : event.raw.Avoids [placeholder]) :
    table.written event = .ofEvent table event := by
  have hraw : restoreBackslashes event.raw = event.raw :=
    restoreBackslashes_of_not_mem (hevent.not_mem List.mem_cons_self)
  cases event with
  | text content =>
      rw [written_text]
      exact congrArg Directive.print hraw
  | opening body =>
      have hbody : body.Avoids [placeholder] :=
        hevent.of_subset fun char hchar => by simp [Event.raw, hchar]
      rw [written, Directive.ofEvent]
      cases hresolve : table.resolve? body with
      | some style =>
          have hlink := StyleTable.linkAvoids_of_resolve? htable hbody hresolve
          simp only [Directive.restored, Style.restored_of_linkAvoids hlink]
      | none => exact congrArg Directive.print hraw
  | closing body => rfl

theorem written_guarded (table : StyleTable) (event : Event) :
    table.written event.guarded = table.written event := by
  cases event with
  | text content =>
      rw [Event.guarded, written_text,
        restoreBackslashes_guardFinalBackslashes, written_text]
  | opening body => rfl
  | closing body => rfl

/-- Guarding the last text changes nothing that is written. -/
theorem map_written_guardLast (table : StyleTable) (events : List Event) :
    (Event.guardLast events).map table.written = events.map table.written := by
  induction events with
  | nil => rfl
  | cons event rest ih =>
      rw [Event.guardLast]
      split
      · rw [List.map_cons, List.map_cons, written_guarded]
      · rw [List.map_cons, List.map_cons, ih]

end StyleTable

namespace Formatter

/-- The directives of a marked-up text, with all backslashes in them. -/
def directives (formatter : Formatter) (text : Text) : List Directive :=
  (events text).map formatter.styles.written

/-- The styles that are open after a marked-up text. -/
def openStyles (formatter : Formatter) (text : Text) : StyleStack :=
  Directive.stackAfter .empty ((events text).map (.ofEvent formatter.styles))

theorem writtenSpans_eq (formatter : Formatter) (text : Text) :
    formatter.writtenSpans text =
      Directive.spans .empty (Directive.join (formatter.directives text)) := by
  have hempty : StyleStack.empty.restored = .empty := rfl
  simp only [writtenSpans, spansOf, directives]
  rw [← Directive.spans_map_restored, hempty, Directive.map_restored_join,
    List.map_map, ← formatter.styles.map_written_guardLast,
    ← events_guardFinalBackslashes]
  rfl

theorem flow_congr_directives {formatter : Formatter} {first second : Text}
    (hdirectives : formatter.directives first = formatter.directives second)
    (column : Int64) :
    formatter.flow column first = formatter.flow column second := by
  rw [flow_eq_wrapSpans, flow_eq_wrapSpans, writtenSpans_eq, writtenSpans_eq,
    hdirectives]

/-- Without placeholders in the text or in a link, the text is written as if it
had been read as it is. -/
theorem writtenSpans_eq_spansOf {formatter : Formatter} {text : Text}
    (htable : formatter.styles.LinksAvoid [placeholder])
    (htext : text.Avoids [placeholder]) :
    formatter.writtenSpans text = formatter.spansOf text := by
  have hdirectives :
      formatter.directives text =
        (events text).map (.ofEvent formatter.styles) := by
    apply List.map_congr_left
    intro event hevent
    exact StyleTable.written_eq_ofEvent htable
      (htext.of_subset (subset_of_mem_events hevent))
  rw [writtenSpans_eq, hdirectives, spansOf]

theorem flatMap_printed_directives (formatter : Formatter) (text : Text) :
    (formatter.directives text).flatMap Directive.printed =
      restoreBackslashes (literalText formatter.styles (events text)) := by
  simp only [directives, literalText, List.flatMap_map,
    StyleTable.printed_written, restoreBackslashes_eq_map, List.map_flatMap]

theorem stackAfter_directives (formatter : Formatter) (text : Text) :
    Directive.stackAfter .empty (formatter.directives text) =
      (formatter.openStyles text).restored := by
  rw [openStyles, ← Directive.stackAfter_map_restored, List.map_map]
  rfl

end Formatter

/-! ## The final run in the output -/

theorem literalText_textEvents (table : StyleTable) (content : Text) :
    literalText table (textEvents content) = content := by
  cases content <;> simp [literalText, textEvents, Event.literal]

/-- A run at the end of a text is no longer than what follows another
character. -/
theorem le_of_replicate_suffix {start : Text} {count whole : Nat}
    (hstart : start.getLast? ≠ some '\\')
    (hrun :
      List.replicate count '\\' <:+ start ++ List.replicate whole '\\') :
    count ≤ whole := by
  by_contra hlt
  obtain ⟨before, hbefore⟩ := hrun
  have hsum : count = (count - whole - 1) + 1 + whole := by omega
  rw [hsum, ← List.replicate_append_replicate, ← List.append_assoc,
    List.append_left_inj] at hbefore
  rw [← hbefore, List.replicate_succ', ← List.append_assoc,
    List.getLast?_concat] at hstart
  exact hstart rfl

/-- Backslashes at the end of a text are at the end of what it prints. -/
theorem replicate_suffix_literalText (table : StyleTable) {text : Text}
    {count : Nat} (hrun : List.replicate count '\\' <:+ text) :
    List.replicate count '\\' <:+ literalText table (events text) := by
  obtain ⟨start, whole, hstart, rfl, -⟩ := exists_guardFinalBackslashes text
  have hcount : count ≤ whole := le_of_replicate_suffix hstart hrun
  obtain ⟨front, last, hevents⟩ := exists_events_append_run start hstart
  have hprinted :
      literalText table (events (start ++ List.replicate whole '\\')) =
        literalText table front ++ (last ++ List.replicate whole '\\') := by
    rw [hevents _ (.replicate whole (.inl rfl)), literalText,
      List.flatMap_append]
    exact congrArg _ (literalText_textEvents table _)
  have hparts :
      List.replicate whole '\\' =
        List.replicate (whole - count) '\\' ++ List.replicate count '\\' := by
    rw [List.replicate_append_replicate]
    congr 1
    omega
  rw [hprinted, hparts, ← List.append_assoc, ← List.append_assoc]
  exact List.suffix_append _ _

namespace Formatter

/-- A text is written just as if its backslashes had been neither guarded nor
restored.  Of its events only the last text is read with placeholders, and the
final backslashes are the end of what is printed. -/
theorem flow_eq_render {formatter : Formatter} {text : Text}
    (htable : formatter.styles.LinksAvoid [placeholder])
    (htext : placeholder ∉ text) (column : Int64) :
    formatter.flow column text = formatter.render column text ∧
      events (guardFinalBackslashes text) = Event.guardLast (events text) ∧
      ∀ count, List.replicate count '\\' <:+ text →
        List.replicate count '\\' <:+
          (formatter.spansOf text).flatMap Span.text := by
  have havoids : text.Avoids [placeholder] := by
    intro char hchar hmark
    rw [List.mem_singleton] at hmark
    exact htext (hmark ▸ hchar)
  refine ⟨?_, events_guardFinalBackslashes text, ?_⟩
  · rw [flow_eq_wrapSpans, writtenSpans_eq_spansOf htable havoids]
    rfl
  · intro count hrun
    rw [spansOf, Directive.text_join_ofEvent]
    exact replicate_suffix_literalText formatter.styles hrun

/-- Two backslashes in a tag that is not closed, behind a link by name.  As they
are the second is taken by the first, and as placeholders they are not. -/
theorem flow_eq_render_unclosed_tag :
    let home : Style := { link := some "docs".toList }
    let formatter : Formatter :=
      { configuration := Configuration.basic
        styles := StyleTable.empty.insert "home".toList home }
    let text := "<home>x</><b\\\\".toList
    let eventsWith (last : Text) : List Event :=
      [.opening "home".toList, .text "x".toList, .closing [], .text last]
    let written : Text × Int64 :=
      ("\x1b]8;;docs\x1b\\x\x1b]8;;\x1b\\<b\\\\".toList, 5)
    formatter.flow 0 text = written ∧ formatter.render 0 text = written ∧
      events text = eventsWith "<b\\\\".toList ∧
      events (guardFinalBackslashes text) = eventsWith "<b\x00\x00".toList ∧
      "\\\\".toList <:+ (formatter.spansOf text).flatMap Span.text := by
  intro home formatter text eventsWith written
  have hentries :
      ∀ entry ∈ formatter.styles.entries, entry.2.LinkAvoids [placeholder] := by
    decide +kernel
  obtain ⟨hflow, hguarded, hrun⟩ :=
    flow_eq_render (StyleTable.linksAvoid_of_entries hentries)
      (show placeholder ∉ text by decide +kernel) 0
  have hrender : formatter.render 0 text = written := by decide +kernel
  have hevents : events text = eventsWith "<b\\\\".toList := by decide +kernel
  have hlast :
      Event.guardLast (eventsWith "<b\\\\".toList) =
        eventsWith "<b\x00\x00".toList := by
    decide +kernel
  rw [hevents, hlast] at hguarded
  exact
    ⟨hflow.trans hrender, hrender, hevents, hguarded,
      hrun 2 ⟨"<home>x</><b".toList, by decide +kernel⟩⟩

end Formatter

end TerminalMarkup
