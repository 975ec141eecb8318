import TerminalMarkup.Formatter
import TerminalMarkup.Proofs.EventScan

/-!
# The literal text of a marked-up text

What is printed can be told event by event: texts, and opening tags that nobody
understands.  The spans hold the same characters, each under the style of the
tags that are open at its place.
-/

namespace TerminalMarkup

/-- What an event prints. -/
def Event.literal (table : StyleTable) : Event → Text
  | .text content => content
  | .opening body =>
      if (table.resolve? body).isSome then [] else (Event.opening body).raw
  | .closing _ => []

def literalText (table : StyleTable) (events : List Event) : Text :=
  events.flatMap (Event.literal table)

/-- The printed characters, each with the style that the open tags make up at
its place. -/
def styledLiterals (table : StyleTable) :
    StyleStack → List Event → List (Char × Style)
  | _, [] => []
  | stack, .text content :: rest =>
      content.map (·, stack.current) ++ styledLiterals table stack rest
  | stack, .opening body :: rest =>
      match table.resolve? body with
      | some style => styledLiterals table (stack.push style) rest
      | none =>
          (Event.opening body).raw.map (·, stack.current) ++
            styledLiterals table stack rest
  | stack, .closing _ :: rest => styledLiterals table stack.pop rest

theorem map_fst_styledLiterals (table : StyleTable) (stack : StyleStack)
    (events : List Event) :
    (styledLiterals table stack events).map Prod.fst =
      literalText table events := by
  have hletters (style : Style) (text : Text) :
      (text.map (·, style)).map Prod.fst = text := by
    simp [Function.comp_def]
  induction events generalizing stack with
  | nil => rfl
  | cons event rest ih =>
      simp only [literalText, List.flatMap_cons] at ih ⊢
      cases event with
      | text content =>
          simp only [styledLiterals, List.map_append, hletters, ih]
          rfl
      | opening body =>
          simp only [styledLiterals, Event.literal]
          cases table.resolve? body with
          | some style => simpa using ih (stack.push style)
          | none =>
              simp only [List.map_append, hletters, ih]
              rfl
      | closing body => simpa [styledLiterals, Event.literal] using ih stack.pop

theorem literal_sublist_raw (table : StyleTable) (event : Event) :
    (event.literal table).Sublist event.raw := by
  cases event with
  | text content => exact List.Sublist.refl _
  | opening body =>
      simp only [Event.literal]
      split
      · exact List.nil_sublist _
      · exact List.Sublist.refl _
  | closing body => exact List.nil_sublist _

theorem literalText_events_sublist (table : StyleTable) (text : Text) :
    (literalText table (events text)).Sublist text := by
  have hparts (list : List Event) :
      (literalText table list).Sublist (list.flatMap Event.raw) := by
    induction list with
    | nil => exact List.Sublist.refl _
    | cons event rest ih =>
        simp only [literalText, List.flatMap_cons] at ih ⊢
        exact (literal_sublist_raw table event).append ih
  exact (hparts (events text)).trans (events_raw_sublist text)

/-! ## Characters span by span -/

def Span.letters (span : Span) : List (Char × Style) :=
  span.text.map (·, span.style)

namespace Directive

theorem letters_cons (stack : StyleStack) (directive : Directive)
    (rest : List Directive) :
    (spans stack (cons directive rest)).flatMap Span.letters =
      (spans stack (directive :: rest)).flatMap Span.letters := by
  unfold cons
  split
  next first second others =>
    simp [spans, Span.letters]
  next => rfl

/-- The spans print what the events print, character by character. -/
theorem letters_join_ofEvent (table : StyleTable) (stack : StyleStack)
    (events : List Event) :
    (spans stack (join (events.map (ofEvent table)))).flatMap Span.letters =
      styledLiterals table stack events := by
  induction events generalizing stack with
  | nil => rfl
  | cons event rest ih =>
      simp only [List.map_cons, join, List.foldr_cons]
      rw [letters_cons]
      simp only [join] at ih
      cases event with
      | text content =>
          simp only [ofEvent, spans, List.flatMap_cons, styledLiterals]
          rw [ih]
          rfl
      | opening body =>
          simp only [ofEvent, styledLiterals]
          cases table.resolve? body with
          | some style =>
              simp only [spans]
              rw [ih]
          | none =>
              simp only [spans, List.flatMap_cons]
              rw [ih]
              rfl
      | closing body =>
          simp only [ofEvent, spans, styledLiterals]
          rw [ih]

theorem text_join_ofEvent (table : StyleTable) (stack : StyleStack)
    (events : List Event) :
    (spans stack (join (events.map (ofEvent table)))).flatMap Span.text =
      literalText table events := by
  rw [← map_fst_styledLiterals table stack, ← letters_join_ofEvent,
    List.map_flatMap]
  simp [Span.letters, Function.comp_def]

end Directive

theorem Directive.mem_of_enter_mem_cons {style : Style}
    {directive : Directive} {rest : List Directive}
    (hmem : .enter style ∈ cons directive rest) :
    .enter style ∈ directive :: rest := by
  unfold cons at hmem
  split at hmem
  next first second others =>
    simp only [List.mem_cons, reduceCtorEq, false_or] at hmem ⊢
    exact hmem
  next => exact hmem

/-- Directives are joined by their texts alone, so the styles that are entered
are those of the single directives. -/
theorem Directive.enter_mem_of_mem_join {style : Style}
    {directives : List Directive} (hmem : .enter style ∈ join directives) :
    .enter style ∈ directives := by
  induction directives with
  | nil => exact hmem
  | cons directive rest ih =>
      simp only [join, List.foldr_cons] at hmem
      rcases List.mem_cons.mp (mem_of_enter_mem_cons hmem) with hhead | htail
      · exact hhead ▸ List.mem_cons_self
      · exact List.mem_cons_of_mem _ (ih htail)

/-- The style of a span is made up of styles that were open before or are
entered on the way. -/
theorem Directive.style_of_mem_spans {Good : Style → Prop}
    {directives : List Directive} {stack : StyleStack} {span : Span}
    (hstack : ∀ layer ∈ stack.layers, Good layer)
    (henter : ∀ style, .enter style ∈ directives → Good style)
    (hspan : span ∈ spans stack directives) :
    ∃ open_ : StyleStack,
      span.style = open_.current ∧ ∀ layer ∈ open_.layers, Good layer := by
  induction directives generalizing stack with
  | nil => simp [spans] at hspan
  | cons directive rest ih =>
      have hrest : ∀ style, .enter style ∈ rest → Good style :=
        fun style hstyle => henter style (List.mem_cons_of_mem _ hstyle)
      cases directive with
      | print text =>
          simp only [spans, List.mem_cons] at hspan
          rcases hspan with rfl | hspan
          · exact ⟨stack, rfl, hstack⟩
          · exact ih hstack hrest hspan
      | enter style =>
          refine ih ?_ hrest hspan
          intro layer hlayer
          rcases List.mem_cons.mp hlayer with rfl | hbelow
          · exact henter layer List.mem_cons_self
          · exact hstack layer hbelow
      | leave =>
          refine ih ?_ hrest hspan
          intro layer hlayer
          exact hstack layer (List.mem_of_mem_tail hlayer)

end TerminalMarkup
