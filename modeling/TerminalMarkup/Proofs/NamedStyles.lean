import Mathlib.Data.List.Forall2
import TerminalMarkup.Proofs.TagBodies
import TerminalMarkup.Proofs.WrittenAttributes
import TerminalMarkup.Proofs.WrittenDirectives

/-!
# Styles by name

A tag asks for a style by its name, in any case, or else by its attributes.  Of
the styles registered under a name the last one counts, and a text depends on no
names but those its opening tags ask for.
-/

namespace TerminalMarkup

namespace StyleTable

theorem find?_insert_self (table : StyleTable) (name : Text) (style : Style) :
    (table.insert name style).find? name = some style := by
  simp [find?, insert]

/-- Another name finds the new style, if it is the same but for case, or else
what it found before. -/
theorem find?_insert_eq (table : StyleTable) (name other : Text)
    (style : Style) :
    (table.insert name style).find? other =
      if other.lowerCase = name.lowerCase then some style
      else table.find? other := by
  rw [find?, insert, List.lookup_cons]
  split
  next hsame => rw [if_pos (by simpa using hsame)]
  next hother => rw [if_neg (by simpa using hother), find?]

theorem resolve?_escapeBody_name (table : StyleTable) (name : Text)
    (style : Style) :
    (table.insert name style).resolve? (escapeBody name) = some style := by
  rw [resolve?, unescapeBody_escapeBody, find?_insert_self, Option.some_or]

theorem resolve?_escapeBody_write {table : StyleTable} {style : Style}
    (hstyle : style.IsWritable) (hfree : table.find? style.write = none)
    (name : Text) :
    (table.insert name style).resolve? (escapeBody style.write) =
      some style := by
  rw [resolve?, unescapeBody_escapeBody, find?_insert_eq,
    Style.read_write hstyle]
  split
  · rfl
  · rw [hfree]
    rfl

end StyleTable

theorem AttributeKey.beginsWithLetter_name (key : AttributeKey) :
    BeginsWithLetter key.name := by
  cases key <;> exact ⟨_, _, rfl, by decide⟩

theorem BeginsWithLetter.append {text : Text} (htext : BeginsWithLetter text)
    (after : Text) : BeginsWithLetter (text ++ after) := by
  obtain ⟨letter, rest, rfl, hletter⟩ := htext
  exact ⟨letter, rest ++ after, rfl, hletter⟩

theorem Style.writtenAttributes_ne_nil {style : Style}
    (hstyle : style.isEmpty = false) : style.writtenAttributes ≠ [] := by
  intro hnil
  have hvalue (key : AttributeKey) : style.value? key = none := by
    rw [writtenAttributes, List.filterMap_eq_nil_iff] at hnil
    have hkey := hnil key (by cases key <;> decide)
    simpa using hkey
  have heffects : style.effects.isEmpty = true := by
    simpa [value?] using hvalue .effects
  simp only [value?] at hvalue
  have hempty : style.isEmpty = true := by
    have hforeground : style.foreground = none := hvalue .foreground
    have hbackground : style.background = none := hvalue .background
    have hlink : style.link = none := hvalue .link
    simp [isEmpty, heffects, hforeground, hbackground, hlink]
  rw [hstyle] at hempty
  contradiction

theorem Style.beginsWithLetter_write {style : Style}
    (hstyle : style.isEmpty = false) : BeginsWithLetter style.write := by
  obtain ⟨first, others, hwritten⟩ :=
    List.exists_cons_of_ne_nil (writtenAttributes_ne_nil hstyle)
  have hfirst : BeginsWithLetter first := by
    have hmem : first ∈ style.writtenAttributes := by
      rw [hwritten]
      exact List.mem_cons_self
    obtain ⟨key, -, hkey⟩ := List.mem_filterMap.mp hmem
    obtain ⟨value, -, rfl⟩ := Option.map_eq_some_iff.mp hkey
    exact key.beginsWithLetter_name.append _
  rw [write, hwritten]
  by_cases hothers : others = []
  · subst others
    simpa using hfirst
  · rw [List.intercalate_cons_of_ne_nil hothers, List.append_assoc]
    exact hfirst.append _

/-! ## Tags for the same style -/

namespace Formatter

theorem directives_tagOf {formatter : Formatter} {before text : Text}
    {style : Style} (hbefore : before = [] ∨ EndsWithTag before)
    (htext : BeginsWithLetter text)
    (hresolve : formatter.styles.resolve? (escapeBody text) = some style)
    (after : Text) :
    formatter.directives (before ++ tagOf text ++ after) =
      formatter.directives before ++
        .enter style.restored :: formatter.directives after := by
  have htag :
      formatter.styles.written (.opening (escapeBody text)) =
        .enter style.restored := by
    simp [StyleTable.written, Directive.ofEvent, hresolve, Directive.restored]
  rw [directives, events_append_tagOf_append hbefore htext, List.map_append,
    List.map_cons, htag]
  rfl

/-- A registered style is entered alike by its name and by its attributes.  No
other style may be registered under the attributes, since names come first; the
name itself may be the attributes. -/
theorem flow_tagOf_name {style : Style} {name before : Text}
    (formatter : Formatter) (hstyle : style.isEmpty = false)
    (hwritable : style.IsWritable) (hname : BeginsWithLetter name)
    (hbefore : before = [] ∨ EndsWithTag before)
    (hfree : formatter.styles.find? style.write = none)
    (after : Text) (column : Int64) :
    let registered := formatter.setStyle name style
    registered.flow column (before ++ tagOf name ++ after) =
      registered.flow column (before ++ tagOf style.write ++ after) := by
  intro registered
  apply flow_congr_directives
  rw [directives_tagOf hbefore hname
      (formatter.styles.resolve?_escapeBody_name name style),
    directives_tagOf hbefore (Style.beginsWithLetter_write hstyle)
      (StyleTable.resolve?_escapeBody_write hwritable hfree name)]

/-- The name and the link both hold brackets. -/
theorem flow_tagOf_name_brackets :
    let formatter : Formatter := { configuration := Configuration.basic }
    let style : Style :=
      { foreground := some "Red".toList, link := some "a=<b>\\".toList }
    let registered := formatter.setStyle "Note<1>".toList style
    let shown :=
      "\x1b[31m\x1b]8;;a=<b>\\\x1b\\x\x1b]8;;\x1b\\\x1b[39m".toList
    registered.flow 0 ("</>".toList ++ tagOf "Note<1>".toList ++ "x".toList) =
        (shown, 1) ∧
      registered.flow 0 ("</>".toList ++ tagOf style.write ++ "x".toList) =
        (shown, 1) := by
  intro formatter style registered shown
  have hwritable : style.IsWritable := by
    constructor
    · intro value hvalue
      obtain rfl : "Red".toList = value := by simpa [style] using hvalue
      exact ⟨by decide, by decide, by decide⟩
    · intro value hvalue
      simp [style] at hvalue
    · intro value hvalue
      obtain rfl : "a=<b>\\".toList = value := by simpa [style] using hvalue
      exact ⟨by decide, by decide, by decide⟩
  have hbefore : EndsWithTag "</>".toList :=
    ⟨.closing [], by decide +kernel, rfl⟩
  have hname : BeginsWithLetter "Note<1>".toList := ⟨_, _, rfl, by decide⟩
  have hsame :=
    flow_tagOf_name formatter (by decide) hwritable hname (.inr hbefore)
      (by decide) "x".toList 0
  have hwritten :
      registered.flow 0 ("</>".toList ++ tagOf style.write ++ "x".toList) =
        (shown, 1) := by
    decide +kernel
  exact ⟨hsame.trans hwritten, hwritten⟩

end Formatter

/-! ## Names but for case -/

/-- The texts have the same letters, each in its own case. -/
def Text.SameButCase (first second : Text) : Prop :=
  List.Forall₂ (fun char other => char.toLower = other.toLower) first second

theorem Text.sameButCase_iff (first second : Text) :
    first.SameButCase second ↔ first.lowerCase = second.lowerCase := by
  rw [← List.forall₂_eq_eq_eq]
  simp only [lowerCase, List.forall₂_map_left_iff, List.forall₂_map_right_iff]
  exact Iff.rfl

instance (first second : Text) : Decidable (first.SameButCase second) :=
  decidable_of_iff _ (Text.sameButCase_iff first second).symm

namespace Formatter

def setStyles (formatter : Formatter) (calls : List (Text × Style)) :
    Formatter :=
  calls.foldl (fun known call => known.setStyle call.1 call.2) formatter

theorem setStyles_append (formatter : Formatter)
    (first second : List (Text × Style)) :
    formatter.setStyles (first ++ second) =
      (formatter.setStyles first).setStyles second :=
  List.foldl_append

theorem find?_setStyle_of_same {name other : Text}
    (hsame : name.SameButCase other) (formatter : Formatter) (style : Style) :
    (formatter.setStyle name style).styles.find? other = some style := by
  have hlower := (Text.sameButCase_iff _ _).mp hsame
  exact (StyleTable.find?_insert_eq _ _ _ _).trans (if_pos hlower.symm)

theorem find?_setStyle_of_other {name other : Text}
    (hother : ¬ name.SameButCase other) (formatter : Formatter)
    (style : Style) :
    (formatter.setStyle name style).styles.find? other =
      formatter.styles.find? other := by
  rw [Text.sameButCase_iff] at hother
  exact (StyleTable.find?_insert_eq _ _ _ _).trans (if_neg (Ne.symm hother))

theorem find?_setStyles_of_other {name : Text} {calls : List (Text × Style)}
    (hothers : ∀ call ∈ calls, ¬ call.1.SameButCase name)
    (formatter : Formatter) :
    (formatter.setStyles calls).styles.find? name =
      formatter.styles.find? name := by
  induction calls generalizing formatter with
  | nil => rfl
  | cons call rest ih =>
      have hrest := ih (fun other hmem => hothers other (.tail _ hmem))
        (formatter.setStyle call.1 call.2)
      exact hrest.trans
        (find?_setStyle_of_other (hothers call (.head _)) formatter call.2)

theorem find?_setStyles_of_last {name used : Text}
    {back : List (Text × Style)} (hsame : used.SameButCase name)
    (hothers : ∀ call ∈ back, ¬ call.1.SameButCase name)
    (formatter : Formatter) (front : List (Text × Style)) (style : Style) :
    (formatter.setStyles (front ++ (used, style) :: back)).styles.find? name =
      some style := by
  rw [setStyles_append]
  exact (find?_setStyles_of_other hothers _).trans
    (find?_setStyle_of_same hsame _ style)

theorem configuration_setStyles (formatter : Formatter)
    (calls : List (Text × Style)) :
    (formatter.setStyles calls).configuration = formatter.configuration := by
  induction calls generalizing formatter with
  | nil => rfl
  | cons call rest ih => exact ih (formatter.setStyle call.1 call.2)

end Formatter

/-! ## What a text uses of the names -/

/-- What an event says, if `meaning` tells which style a body asks for. -/
def Directive.ofMeaning (meaning : Text → Option Style) : Event → Directive
  | .text content => print content
  | .opening body =>
      match meaning body with
      | some style => enter style
      | none => print (Event.opening body).raw
  | .closing _ => leave

theorem Event.opening_mem_guardLast {body : Text} {events : List Event}
    (hmem : .opening body ∈ guardLast events) : .opening body ∈ events := by
  induction events with
  | nil => exact hmem
  | cons event rest ih =>
      rw [guardLast] at hmem
      split at hmem
      · rcases List.mem_cons.mp hmem with hfirst | hrest
        · cases event with
          | text content => simp [guarded] at hfirst
          | opening other => exact List.mem_cons.mpr (.inl hfirst)
          | closing other => simp [guarded] at hfirst
        · exact .tail _ hrest
      · rcases List.mem_cons.mp hmem with hfirst | hrest
        · exact List.mem_cons.mpr (.inl hfirst)
        · exact .tail _ (ih hrest)

namespace Formatter

/-- Write a marked-up text without any table of styles: `meaning` tells which
style the body of an opening tag asks for. -/
def flowAs (configuration : Configuration) (meaning : Text → Option Style)
    (column : Int64) (text : Text) : Text × Int64 :=
  let directives :=
    (events (guardFinalBackslashes text)).map (.ofMeaning meaning)
  let (written, cursor) :=
    wrapSpans configuration ⟨column, false⟩
      (Directive.spans .empty (Directive.join directives))
  (restoreBackslashes written, cursor.column)

theorem flow_eq_flowAs (formatter : Formatter) (column : Int64)
    (text : Text) :
    formatter.flow column text =
      flowAs formatter.configuration formatter.styles.resolve? column text := by
  have hdirectives :
      (events (guardFinalBackslashes text)).map
          (Directive.ofEvent formatter.styles) =
        (events (guardFinalBackslashes text)).map
          (Directive.ofMeaning formatter.styles.resolve?) := by
    apply List.map_congr_left
    intro event _
    cases event <;> rfl
  rw [flow, render, spansOf, hdirectives, flowAs]

/-- Only the bodies of the opening tags in a text are asked for a meaning. -/
theorem flowAs_congr {first second : Text → Option Style} {text : Text}
    (hsame : ∀ body, .opening body ∈ events text → first body = second body)
    (configuration : Configuration) (column : Int64) :
    flowAs configuration first column text =
      flowAs configuration second column text := by
  have hdirectives :
      (events (guardFinalBackslashes text)).map (Directive.ofMeaning first) =
        (events (guardFinalBackslashes text)).map
          (Directive.ofMeaning second) := by
    apply List.map_congr_left
    intro event hevent
    cases event with
    | text content => rfl
    | opening body =>
        rw [events_guardFinalBackslashes] at hevent
        have hbody := hsame body (Event.opening_mem_guardLast hevent)
        simp only [Directive.ofMeaning, hbody]
    | closing body => rfl
  rw [flowAs, flowAs, hdirectives]

/-- `meaning` gives each opening tag of the text the style that is registered
under its name, whatever its attributes are, and only without such a style the
one of its attributes, if these can be read. -/
structure Understands (formatter : Formatter) (text : Text)
    (meaning : Text → Option Style) : Prop where
  named :
    ∀ body style, .opening body ∈ events text →
      formatter.styles.find? (unescapeBody body) = some style →
        meaning body = some style
  decoded :
    ∀ body, .opening body ∈ events text →
      formatter.styles.find? (unescapeBody body) = none →
        meaning body = (Style.read (unescapeBody body)).toOption

theorem flow_of_understands {formatter : Formatter} {text : Text}
    {meaning : Text → Option Style}
    (hmeaning : formatter.Understands text meaning) (column : Int64) :
    formatter.flow column text =
      flowAs formatter.configuration meaning column text := by
  rw [flow_eq_flowAs]
  apply flowAs_congr
  intro body hbody
  rw [StyleTable.resolve?]
  cases hfind : formatter.styles.find? (unescapeBody body) with
  | some style => rw [hmeaning.named body style hbody hfind, Option.some_or]
  | none => rw [hmeaning.decoded body hbody hfind, Option.none_or]

theorem flow_congr_find? {formatter other : Formatter} {text : Text}
    (hconfiguration : formatter.configuration = other.configuration)
    (hsame :
      ∀ body, .opening body ∈ events text →
        formatter.styles.find? (unescapeBody body) =
          other.styles.find? (unescapeBody body))
    (column : Int64) :
    formatter.flow column text = other.flow column text := by
  rw [flow_eq_flowAs, flow_eq_flowAs, hconfiguration]
  apply flowAs_congr
  intro body hbody
  simp only [StyleTable.resolve?, hsame body hbody]

theorem flow_setStyle_of_other {name text : Text}
    (hothers :
      ∀ body, .opening body ∈ events text →
        ¬ name.SameButCase (unescapeBody body))
    (formatter : Formatter) (style : Style) (column : Int64) :
    (formatter.setStyle name style).flow column text =
      formatter.flow column text := by
  have hconfiguration :
      (formatter.setStyle name style).configuration =
        formatter.configuration := rfl
  apply flow_congr_find? hconfiguration
  intro body hbody
  exact find?_setStyle_of_other (hothers body hbody) formatter style

theorem find?_setStyle_comm {first second : Text}
    (hdifferent : ¬ first.SameButCase second) (formatter : Formatter)
    (style other : Style) (name : Text) :
    ((formatter.setStyle first style).setStyle second other).styles.find?
        name =
      ((formatter.setStyle second other).setStyle first style).styles.find?
        name := by
  rw [Text.sameButCase_iff] at hdifferent
  simp only [setStyle, StyleTable.find?_insert_eq]
  by_cases hfirst : name.lowerCase = first.lowerCase
  · have hsecond : name.lowerCase ≠ second.lowerCase := by
      rwa [hfirst]
    rw [if_neg hsecond, if_pos hfirst, if_pos hfirst]
  · rw [if_neg hfirst, if_neg hfirst]

/-- Of the styles registered under a name the last one is found, and under any
other name what was found before.  A text is written by what its opening tags
mean, a name before attributes.  So registering a style changes nothing in texts
that do not ask for its name, and two names may be registered in either order. -/
theorem setStyles_last_wins (formatter : Formatter)
    (calls : List (Text × Style)) :
    let registered := formatter.setStyles calls
    (∀ name front used style back,
        calls = front ++ (used, style) :: back →
          used.SameButCase name →
          (∀ call ∈ back, ¬ call.1.SameButCase name) →
            registered.styles.find? name = some style) ∧
      (∀ name, (∀ call ∈ calls, ¬ call.1.SameButCase name) →
        registered.styles.find? name = formatter.styles.find? name) ∧
      (∀ name, registered.styles.contains name = true ↔
        ∃ style, registered.styles.find? name = some style) ∧
      (∀ column text meaning, registered.Understands text meaning →
        registered.flow column text =
          flowAs formatter.configuration meaning column text) ∧
      (∀ name style column text,
        (∀ body, .opening body ∈ events text →
          ¬ name.SameButCase (unescapeBody body)) →
          (registered.setStyle name style).flow column text =
            registered.flow column text) ∧
      ∀ first second style other, ¬ first.SameButCase second →
        let one := (registered.setStyle first style).setStyle second other
        let two := (registered.setStyle second other).setStyle first style
        (∀ name, one.styles.find? name = two.styles.find? name) ∧
          ∀ column text, one.flow column text = two.flow column text := by
  intro registered
  refine ⟨?_, ?_, ?_, ?_, ?_, ?_⟩
  · rintro name front used style back rfl hsame hothers
    exact find?_setStyles_of_last hsame hothers formatter front style
  · intro name hothers
    exact find?_setStyles_of_other hothers formatter
  · intro name
    exact Option.isSome_iff_exists
  · intro column text meaning hmeaning
    rw [flow_of_understands hmeaning, configuration_setStyles]
  · intro name style column text hothers
    exact flow_setStyle_of_other hothers registered style column
  · intro first second style other hdifferent one two
    have hfind := find?_setStyle_comm hdifferent registered style other
    have hconfiguration : one.configuration = two.configuration := rfl
    refine ⟨hfind, ?_⟩
    intro column text
    apply flow_congr_find? hconfiguration
    intro body _
    exact hfind (unescapeBody body)

/-- The name could be read as attributes, and is written with other capitals
each time.  The style registered last counts for it, and neither an earlier one
nor its attributes. -/
theorem setStyles_last_wins_attributes :
    let blue : Style := { foreground := some "blue".toList }
    let green : Style := { foreground := some "green".toList }
    let formatter : Formatter := { configuration := Configuration.basic }
    let calls : List (Text × Style) :=
      [("FG=red".toList, blue), ("fg=Red".toList, green), ("red".toList, blue)]
    let registered := formatter.setStyles calls
    let text : Text := "<fg=r\\ed>x</>\\".toList
    registered.styles.find? "fg=red".toList = some green ∧
      registered.styles.find? "É".toList = formatter.styles.find? "É".toList ∧
      (registered.Understands text fun _ => some green) ∧
      registered.flow 0 text = ("\x1b[32mx\x1b[39m\\".toList, 2) ∧
      (registered.setStyle "note".toList blue).flow 0 text =
        registered.flow 0 text ∧
      ((registered.setStyle "note".toList blue).setStyle "fg".toList green).flow
          0 text =
        ((registered.setStyle "fg".toList green).setStyle "note".toList
          blue).flow 0 text := by
  intro blue green formatter calls registered text
  obtain ⟨hlast, hothers, -, hflow, hframe, hcomm⟩ :=
    setStyles_last_wins formatter calls
  have hfind : registered.styles.find? "fg=red".toList = some green :=
    hlast _ [("FG=red".toList, blue)] "fg=Red".toList green
      [("red".toList, blue)] rfl (by decide) (by decide)
  have hevents :
      events text =
        [.opening "fg=r\\ed".toList, .text "x".toList, .closing [],
          .text "\\".toList] := by
    decide +kernel
  have hbody :
      ∀ body, .opening body ∈ events text → body = "fg=r\\ed".toList := by
    intro body hmem
    rw [hevents] at hmem
    simpa using hmem
  have hmeaning : registered.Understands text fun _ => some green := by
    constructor
    · intro body style hmem hnamed
      rw [hbody body hmem] at hnamed
      exact hfind.symm.trans hnamed
    · intro body hmem hnone
      rw [hbody body hmem] at hnone
      exact absurd (hfind.symm.trans hnone) (by simp)
  have hwritten :
      flowAs formatter.configuration (fun _ => some green) 0 text =
        ("\x1b[32mx\x1b[39m\\".toList, 2) := by
    decide +kernel
  have hnote :
      ∀ body, .opening body ∈ events text →
        ¬ Text.SameButCase "note".toList (unescapeBody body) := by
    intro body hmem
    rw [hbody body hmem]
    decide
  exact
    ⟨hfind, hothers _ (by decide), hmeaning,
      (hflow 0 text _ hmeaning).trans hwritten, hframe _ blue 0 text hnote,
      (hcomm "note".toList "fg".toList blue green (by decide)).2 0 text⟩

end Formatter

end TerminalMarkup
