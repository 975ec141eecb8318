import TerminalMarkup.Proofs.CodeReading
import TerminalMarkup.Proofs.EscapeSegments

/-!
# What terminals of a depth are told

Whatever tokens a style holds, its codes tell a terminal no more than it can
show.  This needs a link without the escape character: a target is written as it
is and could begin sequences of its own.  Parameters are grouped before they are
judged, since a palette number 38 before the parameter for dim is no mixture.
-/

namespace TerminalMarkup

/-- What a terminal is told at once. -/
inductive Selection
  | one (parameter : Nat)
  | indexed (ground : Ground) (number : Nat)
  | mixture (ground : Ground) (red green blue : Nat)
deriving DecidableEq, Repr

/-- The parameters 38 and 48 take those behind them for an indexed color or a
mixture; all others stand alone. -/
def selections : List Nat → List Selection
  | [] => []
  | 38 :: 5 :: number :: rest =>
      .indexed .foreground number :: selections rest
  | 38 :: 2 :: red :: green :: blue :: rest =>
      .mixture .foreground red green blue :: selections rest
  | 48 :: 5 :: number :: rest =>
      .indexed .background number :: selections rest
  | 48 :: 2 :: red :: green :: blue :: rest =>
      .mixture .background red green blue :: selections rest
  | parameter :: rest => .one parameter :: selections rest

/-- The rows of the named colors on both grounds, and the default colors. -/
def IsNamedParameter (parameter : Nat) : Prop :=
  (30 ≤ parameter ∧ parameter ≤ 37) ∨ parameter = 39 ∨
    (40 ≤ parameter ∧ parameter ≤ 47) ∨ parameter = 49 ∨
    (90 ≤ parameter ∧ parameter ≤ 97) ∨
    (100 ≤ parameter ∧ parameter ≤ 107)

/-- What a terminal with the named colors alone knows. -/
def IsBasicParameter (parameter : Nat) : Prop :=
  IsNamedParameter parameter ∨
    ∃ effect : Effect,
      parameter = effect.setParameter ∨ parameter = effect.unsetParameter

/-- A terminal of the depth can be told the selection. -/
def ColorDepth.Takes (depth : ColorDepth) : Selection → Prop
  | .one parameter => depth ≠ .plain ∧ IsBasicParameter parameter
  | .indexed _ _ => depth = .indexed ∨ depth = .trueColor
  | .mixture _ _ _ _ => depth = .trueColor

/-- The text holds a control sequence with this body and last character. -/
def Text.HasControl (text body : Text) (last : Char) : Prop :=
  ∃ segments, Segmented text segments ∧ .control body last ∈ segments

/-- The opening or the closing code of the style holds the control sequence. -/
def Style.Emits (style : Style) (depth : ColorDepth) (body : Text)
    (last : Char) : Prop :=
  (style.codes depth).opening.HasControl body last ∨
    (style.codes depth).closing.HasControl body last

/-- The colors that a terminal shows as they are. -/
def ColorDepth.Shows (depth : ColorDepth) : Color → Prop
  | .default | .named _ => True
  | .indexed _ => depth = .indexed ∨ depth = .trueColor
  | .rgb _ => depth = .trueColor

/-! ## Reduction -/

namespace Color

theorem reduce_of_shows {depth : ColorDepth} {color : Color}
    (hshows : depth.Shows color) : color.reduce depth = color := by
  cases color with
  | default => cases depth <;> rfl
  | named color => cases depth <;> rfl
  | indexed number => rcases hshows with rfl | rfl <;> rfl
  | rgb value =>
      obtain rfl := hshows
      rfl

theorem shows_reduce {depth : ColorDepth} (hdepth : depth ≠ .plain)
    (color : Color) : depth.Shows (color.reduce depth) := by
  cases depth with
  | plain => contradiction
  | basic =>
      cases color with
      | indexed number =>
          simp only [reduce, toBasic]
          split <;> trivial
      | _ => trivial
  | indexed =>
      cases color with
      | rgb value => exact .inl rfl
      | indexed number => exact .inl rfl
      | _ => trivial
  | trueColor =>
      cases color with
      | rgb value => rfl
      | indexed number => exact .inr rfl
      | _ => trivial

theorem reduce_reduce (depth : ColorDepth) (color : Color) :
    (color.reduce depth).reduce depth = color.reduce depth := by
  by_cases hdepth : depth = .plain
  · subst depth
    rfl
  · exact reduce_of_shows (shows_reduce hdepth color)

end Color

/-! ## Parameters of a style -/

theorem IsBasicParameter.ne {parameter : Nat}
    (hparameter : IsBasicParameter parameter) :
    parameter ≠ 38 ∧ parameter ≠ 48 := by
  rcases hparameter with hnamed | ⟨effect, rfl | rfl⟩
  · unfold IsNamedParameter at hnamed
    omega
  · cases effect <;> decide
  · cases effect <;> decide

theorem selections_cons {parameter : Nat} (hforeground : parameter ≠ 38)
    (hbackground : parameter ≠ 48) (rest : List Nat) :
    selections (parameter :: rest) = .one parameter :: selections rest := by
  rw [selections]
  · intro number others hparameter
    exact absurd hparameter hforeground
  · intro red green blue others hparameter
    exact absurd hparameter hforeground
  · intro number others hparameter
    exact absurd hparameter hbackground
  · intro red green blue others hparameter
    exact absurd hparameter hbackground

theorem selections_of_basic {parameters : List Nat}
    (hparameters : ∀ parameter ∈ parameters, IsBasicParameter parameter) :
    selections parameters = parameters.map .one := by
  induction parameters with
  | nil => rfl
  | cons first rest ih =>
      obtain ⟨hfirst, hrest⟩ := List.forall_mem_cons.mp hparameters
      rw [selections_cons hfirst.ne.1 hfirst.ne.2, ih hrest, List.map_cons]

theorem isBasicParameter_hue (ground : Ground) (hue : Hue) :
    IsBasicParameter (ground.firstParameter + hue.number) ∧
      IsBasicParameter (ground.firstParameter + 60 + hue.number) := by
  have hhue : hue.number ≤ 7 := by
    cases hue <;> decide
  have hfirst : ground.firstParameter = 30 ∨ ground.firstParameter = 40 := by
    cases ground <;> decide
  unfold IsBasicParameter IsNamedParameter
  constructor <;> left <;> omega

theorem isBasicParameter_unset (ground : Ground) :
    IsBasicParameter ground.unsetParameter := by
  left
  cases ground <;> simp [IsNamedParameter, Ground.unsetParameter,
    Ground.firstParameter]

theorem isBasicParameter_effect (effect : Effect) :
    IsBasicParameter effect.setParameter ∧
      IsBasicParameter effect.unsetParameter :=
  ⟨.inr ⟨effect, .inl rfl⟩, .inr ⟨effect, .inr rfl⟩⟩

namespace Color

/-- How a color is selected. -/
def selection (ground : Ground) : Color → Selection
  | .default => .one ground.unsetParameter
  | .named ⟨.normal, hue⟩ => .one (ground.firstParameter + hue.number)
  | .named ⟨.bright, hue⟩ => .one (ground.firstParameter + 60 + hue.number)
  | .indexed number => .indexed ground number.toNat
  | .rgb ⟨red, green, blue⟩ =>
      .mixture ground red.toNat green.toNat blue.toNat

/-- The parameters of a color are one selection, whatever follows them. -/
theorem selections_parameters_append (ground : Ground) (color : Color)
    (rest : List Nat) :
    selections (color.parameters ground ++ rest) =
      color.selection ground :: selections rest := by
  have hone {parameter : Nat} (hparameter : IsBasicParameter parameter) :
      selections ([parameter] ++ rest) = .one parameter :: selections rest :=
    selections_cons hparameter.ne.1 hparameter.ne.2 rest
  cases color with
  | default => exact hone (isBasicParameter_unset ground)
  | named color =>
      obtain ⟨intensity, hue⟩ := color
      cases intensity with
      | normal => exact hone (isBasicParameter_hue ground hue).1
      | bright => exact hone (isBasicParameter_hue ground hue).2
  | indexed number => cases ground <;> rfl
  | rgb value => cases ground <;> rfl

theorem takes_selection {depth : ColorDepth} (hdepth : depth ≠ .plain)
    {color : Color} (hcolor : depth.Shows color) (ground : Ground) :
    depth.Takes (color.selection ground) := by
  cases color with
  | default => exact ⟨hdepth, isBasicParameter_unset ground⟩
  | named color =>
      obtain ⟨intensity, hue⟩ := color
      cases intensity with
      | normal => exact ⟨hdepth, (isBasicParameter_hue ground hue).1⟩
      | bright => exact ⟨hdepth, (isBasicParameter_hue ground hue).2⟩
  | indexed number => exact hcolor
  | rgb value => exact hcolor

end Color

theorem takes_of_basic {depth : ColorDepth} (hdepth : depth ≠ .plain)
    {parameters : List Nat}
    (hparameters : ∀ parameter ∈ parameters, IsBasicParameter parameter) :
    ∀ selection ∈ selections parameters, depth.Takes selection := by
  intro selection hselection
  rw [selections_of_basic hparameters] at hselection
  obtain ⟨parameter, hmem, rfl⟩ := List.mem_map.mp hselection
  exact ⟨hdepth, hparameters parameter hmem⟩

/-- Parameters that a terminal with the named colors takes stand alone. -/
theorem isBasicParameter_of_takes {parameters : List Nat}
    (htakes :
      ∀ selection ∈ selections parameters, ColorDepth.basic.Takes selection) :
    ∀ parameter ∈ parameters, IsBasicParameter parameter := by
  fun_induction selections parameters with
  | case1 => simp
  | case2 | case3 | case4 | case5 =>
      exact absurd (htakes _ List.mem_cons_self) (by simp [ColorDepth.Takes])
  | case6 first rest _ _ _ _ ih =>
      obtain ⟨hfirst, hrest⟩ := List.forall_mem_cons.mp htakes
      exact List.forall_mem_cons.mpr ⟨hfirst.2, ih hrest⟩

namespace Style

theorem takes_groundSet_append {depth : ColorDepth} (hdepth : depth ≠ .plain)
    (style : Style) (ground : Ground) {rest : List Nat}
    (hrest : ∀ selection ∈ selections rest, depth.Takes selection) :
    ∀ selection ∈
        selections (style.groundSetParameters depth ground ++ rest),
      depth.Takes selection := by
  unfold groundSetParameters
  cases style.color? ground with
  | none => exact hrest
  | some color =>
      rw [Color.selections_parameters_append, List.forall_mem_cons]
      exact
        ⟨Color.takes_selection hdepth (Color.shows_reduce hdepth color) ground,
          hrest⟩

theorem takes_setParameters {depth : ColorDepth} (hdepth : depth ≠ .plain)
    (style : Style) :
    ∀ selection ∈ selections (style.setParameters depth),
      depth.Takes selection := by
  rw [setParameters, List.append_assoc]
  apply takes_groundSet_append hdepth
  apply takes_groundSet_append hdepth
  apply takes_of_basic hdepth
  intro parameter hparameter
  obtain ⟨effect, -, rfl⟩ := List.mem_map.mp hparameter
  exact (isBasicParameter_effect effect).1

theorem isBasicParameter_unsetParameters (style : Style) :
    ∀ parameter ∈ style.unsetParameters, IsBasicParameter parameter := by
  have hground (ground : Ground) :
      ∀ parameter ∈ style.groundUnsetParameters ground,
        IsBasicParameter parameter := by
    unfold groundUnsetParameters
    cases style.color? ground with
    | none => simp
    | some color => simp [isBasicParameter_unset]
  intro parameter hparameter
  rw [unsetParameters, List.mem_append, List.mem_append,
    List.mem_eraseDups] at hparameter
  rcases hparameter with (hforeground | hbackground) | heffects
  · exact hground .foreground parameter hforeground
  · exact hground .background parameter hbackground
  · obtain ⟨effect, -, rfl⟩ := List.mem_map.mp heffects
    exact (isBasicParameter_effect effect).2

end Style

/-! ## Sequences of a style -/

theorem Segmented.hasControl_iff {text : Text} {segments : List Segment}
    (hsegments : Segmented text segments) (body : Text) (last : Char) :
    text.HasControl body last ↔ .control body last ∈ segments := by
  constructor
  · rintro ⟨others, hothers, hmem⟩
    rwa [hothers.unique hsegments] at hmem
  · intro hmem
    exact ⟨segments, hsegments, hmem⟩

/-- A control sequence begins with an escape character and a bracket. -/
theorem Text.HasControl.contains_start {text body : Text} {last : Char}
    (hcontrol : text.HasControl body last) : ['\x1b', '['] <:+: text := by
  obtain ⟨segments, hsegments, hmem⟩ := hcontrol
  have hwritten : Segment.written (.control body last) <:+: text := by
    rw [← hsegments.flatMap_written, List.flatMap]
    exact List.infix_of_mem_flatten (List.mem_map_of_mem hmem)
  have hstart : ['\x1b', '['] <+: Segment.written (.control body last) :=
    ⟨body ++ [last], rfl⟩
  exact hstart.isInfix.trans hwritten

theorem not_infix_append {front back : Text} (hfront : '\x1b' ∉ front)
    (hback : ¬ ['\x1b', '['] <:+: back) :
    ¬ ['\x1b', '['] <:+: front ++ back := by
  induction front with
  | nil => exact hback
  | cons char rest ih =>
      rw [List.mem_cons, not_or] at hfront
      rw [List.cons_append, List.infix_cons_iff, not_or,
        List.cons_prefix_cons, not_and]
      exact ⟨fun hchar => absurd hchar hfront.1, ih hfront.2⟩

/-- A link brings no control sequence with it unless its target holds an escape
character. -/
theorem not_hasControl_linkCode {target : Text} (htarget : '\x1b' ∉ target)
    (body : Text) (last : Char) : ¬ (linkCode target).HasControl body last := by
  intro hcontrol
  have hbody : '\x1b' ∉ ']' :: (['8', ';', ';'] ++ target) := by
    simpa using htarget
  have hending : ¬ ['\x1b', '['] <:+: ['\x1b', '\\'] := by decide
  have hinfix := hcontrol.contains_start
  rw [linkCode_eq, List.infix_cons_iff] at hinfix
  rcases hinfix with hstart | hrest
  · simp [List.cons_prefix_cons] at hstart
  · exact not_infix_append hbody hending hrest

def graphicSegments (parameters : List Nat) : List Segment :=
  if parameters.isEmpty then [] else [.control (parameterText parameters) 'm']

theorem segmented_graphicCode (parameters : List Nat) :
    Segmented (graphicCode parameters) (graphicSegments parameters) := by
  by_cases hparameters : parameters = []
  · subst parameters
    exact .nil
  · have hbody : ∀ char ∈ parameterText parameters, ¬ IsFinal char := by
      intro char hchar
      rw [← endsControl_eq_true_iff, Bool.not_eq_true]
      exact Terminal.endsControl_eq_false_of_mem_parameterText hchar
    have hlast : IsFinal 'm' := by
      simp [IsFinal]
    rw [graphicCode_of_ne_nil hparameters, graphicSegments,
      if_neg (by simpa using hparameters)]
    exact .cons (.control hbody hlast []) .nil

theorem hasControl_graphicCode_iff (parameters : List Nat) (body : Text)
    (last : Char) :
    (graphicCode parameters).HasControl body last ↔
      parameters ≠ [] ∧ body = parameterText parameters ∧ last = 'm' := by
  rw [(segmented_graphicCode parameters).hasControl_iff]
  by_cases hparameters : parameters = []
  · simp [graphicSegments, hparameters]
  · simp [graphicSegments, hparameters]

/-- Control sequences are those of both texts if the first is complete. -/
theorem Segmented.hasControl_append_iff {first second : Text}
    {segments : List Segment} (hfirst : Segmented first segments)
    (hends : ∀ last ∈ segments.getLast?, last.IsComplete) (body : Text)
    (last : Char) :
    (first ++ second).HasControl body last ↔
      first.HasControl body last ∨ second.HasControl body last := by
  obtain ⟨others, hsecond⟩ := Segmented.exists_segments second
  rw [(hfirst.append hends hsecond).hasControl_iff, hfirst.hasControl_iff,
    hsecond.hasControl_iff, List.mem_append]

theorem hasControl_opening_iff {target : Text} (htarget : '\x1b' ∉ target)
    (parameters : List Nat) (body : Text) (last : Char) :
    (graphicCode parameters ++ linkCode target).HasControl body last ↔
      (graphicCode parameters).HasControl body last := by
  have hends :
      ∀ last ∈ (graphicSegments parameters).getLast?, last.IsComplete := by
    by_cases hparameters : parameters = []
    · simp [graphicSegments, hparameters]
    · simp [graphicSegments, hparameters, Segment.IsComplete]
  rw [(segmented_graphicCode parameters).hasControl_append_iff hends]
  exact or_iff_left (not_hasControl_linkCode htarget body last)

theorem hasControl_closing_iff (parameters : List Nat) (body : Text)
    (last : Char) :
    (linkCode [] ++ graphicCode parameters).HasControl body last ↔
      (graphicCode parameters).HasControl body last := by
  have hbody : HasNoEnding ['8', ';', ';'] := by
    unfold HasNoEnding
    decide
  have hending : ['\x1b', '\\'] ∈ commandEndings := by decide
  have hsegments :
      Segmented (linkCode []) [.command ['8', ';', ';'] ['\x1b', '\\']] :=
    .cons (.command hbody hending []) .nil
  rw [hsegments.hasControl_append_iff (by simp [Segment.IsComplete])]
  exact or_iff_right (not_hasControl_linkCode (by simp) body last)

namespace Style

/-- The two lists of parameters make up all control sequences of a style. -/
theorem emits_iff {style : Style} (hlink : style.LinkAvoids ['\x1b'])
    (depth : ColorDepth) (body : Text) (last : Char) :
    style.Emits depth body last ↔
      depth ≠ .plain ∧
        ∃ parameters,
          (parameters = style.setParameters depth ∨
              parameters = style.unsetParameters) ∧
            parameters ≠ [] ∧ body = parameterText parameters ∧ last = 'm' := by
  have hgraphic :
      depth ≠ .plain →
        (style.Emits depth body last ↔
          (graphicCode (style.setParameters depth)).HasControl body last ∨
            (graphicCode style.unsetParameters).HasControl body last) := by
    intro hdepth
    have hcodes : depth.emitsCodes = true := by
      cases depth <;> first | rfl | contradiction
    rw [Emits, codes, if_pos hcodes]
    cases htarget : style.link with
    | none => rfl
    | some target =>
        have hescape := (hlink target htarget).not_mem List.mem_cons_self
        simp only [hasControl_opening_iff hescape, hasControl_closing_iff]
  by_cases hdepth : depth = .plain
  · subst depth
    have hnone : ¬ Text.HasControl [] body last := by
      rw [Segmented.nil.hasControl_iff]
      exact List.not_mem_nil
    simp [Emits, codes, ColorDepth.emitsCodes, Codes.none, hnone]
  · rw [hgraphic hdepth, hasControl_graphicCode_iff,
      hasControl_graphicCode_iff]
    simp only [ne_eq, hdepth, not_false_eq_true, true_and, or_and_right,
      exists_or, exists_eq_left]

theorem takes_of_parameters {style : Style} {depth : ColorDepth}
    (hdepth : depth ≠ .plain) {parameters : List Nat}
    (hparameters :
      parameters = style.setParameters depth ∨
        parameters = style.unsetParameters) :
    ∀ selection ∈ selections parameters, depth.Takes selection := by
  rcases hparameters with rfl | rfl
  · exact takes_setParameters hdepth style
  · exact takes_of_basic hdepth (isBasicParameter_unsetParameters style)

/-- Every control sequence that a style emits selects by parameters that the
terminal takes; for a terminal with the named colors alone these are single
parameters, none of them 38 or 48.  A terminal without codes is sent none.
Reduced colors are those that a terminal shows, so a second reduction changes
nothing. -/
theorem codes_within_depth :
    (∀ (style : Style) (depth : ColorDepth) (body : Text) (last : Char),
        style.LinkAvoids ['\x1b'] → style.Emits depth body last →
          last = 'm' ∧
            ∃ parameters, parameters? body = some parameters ∧
              (∀ selection ∈ selections parameters, depth.Takes selection) ∧
              (depth = .basic →
                ∀ parameter ∈ parameters,
                  IsBasicParameter parameter ∧ parameter ≠ 38 ∧
                    parameter ≠ 48)) ∧
      (∀ style : Style, style.codes .plain = Codes.none) ∧
      ∀ (depth : ColorDepth) (color : Color),
        (color.reduce depth).reduce depth = color.reduce depth ∧
          (depth.Shows color → color.reduce depth = color) ∧
          (depth ≠ .plain → depth.Shows (color.reduce depth)) := by
  refine ⟨?_, fun style => rfl, ?_⟩
  · intro style depth body last hlink hemits
    obtain ⟨hdepth, parameters, hparameters, hne, rfl, rfl⟩ :=
      (emits_iff hlink depth body last).mp hemits
    have htakes := takes_of_parameters hdepth hparameters
    refine
      ⟨rfl, parameters, parameters?_parameterText hne, htakes, ?_⟩
    rintro rfl parameter hparameter
    have hbasic := isBasicParameter_of_takes htakes parameter hparameter
    exact ⟨hbasic, hbasic.ne⟩
  · intro depth color
    exact
      ⟨Color.reduce_reduce depth color, Color.reduce_of_shows,
        fun hdepth => Color.shows_reduce hdepth color⟩

/-- The palette number 38 and the parameter for dim stand side by side without
being the start of a mixture.  With the named colors alone, the same style is
told by one parameter for each. -/
theorem codes_within_depth_dim :
    let style : Style :=
      { foreground := some "38".toList
        link := some "docs\x07".toList
        effects := .ofList [.dim] }
    style.LinkAvoids ['\x1b'] ∧
      style.Emits .indexed "38;5;38;2".toList 'm' ∧
      parameters? "38;5;38;2".toList = some [38, 5, 38, 2] ∧
      selections [38, 5, 38, 2] = [.indexed .foreground 38, .one 2] ∧
      ColorDepth.indexed.Takes (.indexed .foreground 38) ∧
      ColorDepth.indexed.Takes (.one 2) ∧
      style.Emits .basic "36;2".toList 'm' ∧
      (∀ parameter ∈ [36, 2],
        IsBasicParameter parameter ∧ parameter ≠ 38 ∧ parameter ≠ 48) ∧
      (Color.indexed 38).reduce .indexed = .indexed 38 ∧
      ColorDepth.basic.Shows ((Color.indexed 38).reduce .basic) := by
  intro style
  obtain ⟨hemitted, -, hreduce⟩ := codes_within_depth
  have hlink : style.LinkAvoids ['\x1b'] := by decide
  have hindexed : style.Emits .indexed "38;5;38;2".toList 'm' :=
    (emits_iff hlink _ _ _).mpr
      ⟨by decide, [38, 5, 38, 2], .inl (by decide +kernel), by decide,
        by decide, rfl⟩
  have hbasic : style.Emits .basic "36;2".toList 'm' :=
    (emits_iff hlink _ _ _).mpr
      ⟨by decide, [36, 2], .inl (by decide +kernel), by decide, by decide, rfl⟩
  have hread :
      parameters? "38;5;38;2".toList = some [38, 5, 38, 2] := by decide
  have hnamed : parameters? "36;2".toList = some [36, 2] := by decide
  obtain ⟨-, parameters, hparameters, htaken, -⟩ :=
    hemitted style .indexed _ _ hlink hindexed
  obtain rfl := Option.some.inj (hparameters.symm.trans hread)
  obtain ⟨-, others, hothers, -, hsingle⟩ :=
    hemitted style .basic _ _ hlink hbasic
  obtain rfl := Option.some.inj (hothers.symm.trans hnamed)
  exact
    ⟨hlink, hindexed, hread, rfl, htaken _ (by decide), htaken _ (by decide),
      hbasic, hsingle rfl, (hreduce .indexed (.indexed 38)).2.1 (.inl rfl),
      (hreduce .basic (.indexed 38)).2.2 (by decide)⟩

/-- The target of a link ends the command that it is written in and begins a
control sequence.  So the style tells a terminal of a mixture that has the named
colors or the palette alone. -/
theorem codes_beyond_depth :
    let style : Style := { link := some "\x07\x1b[38;2;1;2;3m".toList }
    let body : Text := "38;2;1;2;3".toList
    (style.codes .basic).opening.HasControl body 'm' ∧
      style.Emits .basic body 'm' ∧ style.Emits .indexed body 'm' ∧
      parameters? body = some [38, 2, 1, 2, 3] ∧
      ¬ IsBasicParameter 38 ∧
      selections [38, 2, 1, 2, 3] = [.mixture .foreground 1 2 3] ∧
      ¬ ColorDepth.indexed.Takes (.mixture .foreground 1 2 3) := by
  intro style body
  have hcommand : HasNoEnding ['8', ';', ';'] := by
    unfold HasNoEnding
    decide
  have hbody : ∀ char ∈ body, ¬ IsFinal char := by
    simp [body, IsFinal]
  have hlast : IsFinal 'm' := by
    simp [IsFinal]
  have hending : ['\x07'] ∈ commandEndings := by decide
  have hsegments :
      Segmented (linkCode "\x07\x1b[38;2;1;2;3m".toList)
        [.command ['8', ';', ';'] ['\x07'], .control body 'm', .lone,
          .shown '\\'] :=
    .cons (.command hcommand hending _) <|
      .cons (.control hbody hlast _) <|
        .cons (.lone (by decide) (by decide)) <|
          .cons (.shown (by decide) _) .nil
  have hcontrol :
      (linkCode "\x07\x1b[38;2;1;2;3m".toList).HasControl body 'm' :=
    ⟨_, hsegments, by simp⟩
  exact
    ⟨hcontrol, .inl hcontrol, .inl hcontrol, by decide,
      fun hbasic => hbasic.ne.1 rfl, rfl, by simp [ColorDepth.Takes]⟩

end Style

end TerminalMarkup
