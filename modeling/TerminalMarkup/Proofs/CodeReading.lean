import TerminalMarkup.Proofs.LinkTargets
import TerminalMarkup.Proofs.Terminal

/-!
# Codes read by a terminal

Whatever a terminal showed before, the opening code of a style sets what the
style gives.  The closing code gives the defaults back, so attributes that were
set before are lost if the style sets them again; and bold is lost with dim,
since one parameter unsets both.
-/

namespace TerminalMarkup

/-- How a terminal shows a text in a style, if it showed nothing special
before. -/
def Style.appearance (style : Style) (depth : ColorDepth) : Appearance where
  foreground := ((style.color? .foreground).map (.reduce depth)).getD .default
  background := ((style.color? .background).map (.reduce depth)).getD .default
  link := style.link.getD []
  effects := style.effects

namespace Appearance

def opened (appearance : Appearance) (style : Style) (depth : ColorDepth) :
    Appearance where
  foreground :=
    ((style.color? .foreground).map (.reduce depth)).getD appearance.foreground
  background :=
    ((style.color? .background).map (.reduce depth)).getD appearance.background
  link := style.link.getD appearance.link
  effects := appearance.effects.union style.effects

/-- Unset what a style gives.  Effects that are unset together go together. -/
def closed (appearance : Appearance) (style : Style) : Appearance where
  foreground :=
    if (style.color? .foreground).isSome then .default
    else appearance.foreground
  background :=
    if (style.color? .background).isSome then .default
    else appearance.background
  link := if style.link.isSome then [] else appearance.link
  effects :=
    ⟨fun effect =>
      appearance.effects.contains effect &&
        !(style.effects.toList.map Effect.unsetParameter).contains
          effect.unsetParameter⟩

theorem opened_initial (style : Style) (depth : ColorDepth) :
    ({} : Appearance).opened style depth = style.appearance depth := by
  apply Appearance.ext
  · rfl
  · rfl
  · rfl
  · ext effect
    simp [opened, Style.appearance, EffectSet.union, EffectSet.empty]

/-- What a style has set on a terminal in its initial appearance, it unsets
completely. -/
theorem closed_appearance (style : Style) (depth : ColorDepth) :
    (style.appearance depth).closed style = {} := by
  apply Appearance.ext
  · simp only [closed, Style.appearance]
    cases style.color? .foreground <;> rfl
  · simp only [closed, Style.appearance]
    cases style.color? .background <;> rfl
  · simp only [closed, Style.appearance]
    cases style.link <;> rfl
  · ext effect
    by_cases heffect : style.effects.contains effect = true
    · have hunset :
          effect.unsetParameter ∈
            style.effects.toList.map Effect.unsetParameter :=
        List.mem_map_of_mem ((EffectSet.mem_toList _ effect).mpr heffect)
      simp only [closed, Style.appearance, heffect, Bool.true_and,
        List.contains_iff_mem.mpr hunset]
      rfl
    · simp only [closed, Style.appearance,
        Bool.eq_false_iff.mpr heffect, Bool.false_and]
      rfl

end Appearance

theorem isDigit_of_mem_ofNat {number : Nat} {char : Char}
    (hchar : char ∈ Text.ofNat number) : char.isDigit = true :=
  Nat.isDigit_of_mem_toDigits (by decide) (by decide) hchar

theorem mem_parameterText {parameters : List Nat} {char : Char}
    (hchar : char ∈ parameterText parameters) :
    char.isDigit = true ∨ char = ';' := by
  induction parameters with
  | nil => simp [parameterText] at hchar
  | cons parameter rest ih =>
      cases rest with
      | nil =>
          left
          exact isDigit_of_mem_ofNat (by simpa [parameterText] using hchar)
      | cons following others =>
          simp only [parameterText, List.map_cons,
            List.intercalate_cons_cons, List.mem_append,
            List.mem_singleton] at hchar ih
          rcases hchar with (hdigit | hmark) | hrest
          · exact .inl (isDigit_of_mem_ofNat hdigit)
          · exact .inr hmark
          · exact ih hrest

theorem parameters?_parameterText {parameters : List Nat}
    (hparameters : parameters ≠ []) :
    parameters? (parameterText parameters) = some parameters := by
  have hall :
      (parameterText parameters).all
        (fun char => char.isDigit || char = ';') = true := by
    apply List.all_eq_true.mpr
    intro char hchar
    rcases mem_parameterText hchar with hdigit | hmark
    · simp [hdigit]
    · simp [hmark]
  have hsplit :
      (parameterText parameters).splitOn ';' =
        parameters.map Text.ofNat := by
    apply List.splitOn_intercalate
    · intro digits hdigits hmark
      obtain ⟨number, -, rfl⟩ := List.mem_map.mp hdigits
      exact absurd (isDigit_of_mem_ofNat hmark) (by decide)
    · simpa using hparameters
  have hvalues :
      (parameters.map Text.ofNat).map
          (fun digits => Nat.ofDigitChars 10 digits 0) = parameters := by
    rw [List.map_map]
    calc
      parameters.map
            ((fun digits => Nat.ofDigitChars 10 digits 0) ∘ Text.ofNat) =
          parameters.map id := by
            apply List.map_congr_left
            intro number _
            exact Nat.ofDigitChars_ten_toDigits
      _ = parameters := List.map_id parameters
  rw [parameters?, if_pos hall, hsplit, hvalues]

/-! ## Parameters one by one -/

namespace Appearance

theorem select_cons (appearance : Appearance) {parameter : Nat}
    (hforeground : parameter ≠ 38) (hbackground : parameter ≠ 48)
    (rest : List Nat) :
    appearance.select (parameter :: rest) =
      (appearance.selectOne parameter).select rest := by
  rw [select]
  · intro number others hparameter
    exact absurd hparameter hforeground
  · intro red green blue others hparameter
    exact absurd hparameter hforeground
  · intro number others hparameter
    exact absurd hparameter hbackground
  · intro red green blue others hparameter
    exact absurd hparameter hbackground

def paint (appearance : Appearance) : Ground → Color → Appearance
  | .foreground, color => { appearance with foreground := color }
  | .background, color => { appearance with background := color }

/-- A parameter that selects a color for one ground, and means nothing else,
gives that color to the ground. -/
theorem selectOne_of_color {ground : Ground} {parameter : Nat} {color : Color}
    (hcolor :
      ∀ other : Ground,
        Color.ofParameter? other.firstParameter parameter =
          if other = ground then some color else none)
    (hset : Effect.ofSetParameter? parameter = none)
    (hunset : Effect.ofUnsetParameter parameter = [])
    (appearance : Appearance) :
    appearance.selectOne parameter = appearance.paint ground color := by
  have hforeground := hcolor .foreground
  have hbackground := hcolor .background
  simp only [Ground.firstParameter] at hforeground hbackground
  have heffects :
      (appearance.selectOne parameter).effects = appearance.effects := by
    ext effect
    simp [selectOne, hset, hunset]
  cases ground with
  | foreground =>
      apply Appearance.ext
      · simp [selectOne, hforeground, paint]
      · simp [selectOne, hbackground, paint]
      · rfl
      · exact heffects
  | background =>
      apply Appearance.ext
      · simp [selectOne, hforeground, paint]
      · simp [selectOne, hbackground, paint]
      · rfl
      · exact heffects

theorem selectOne_default (appearance : Appearance) (ground : Ground) :
    appearance.selectOne ground.unsetParameter =
      appearance.paint ground .default := by
  apply selectOne_of_color
  · intro other
    cases ground <;> cases other <;> rfl
  · cases ground <;> rfl
  · cases ground <;> rfl

theorem selectOne_normal (appearance : Appearance) (ground : Ground)
    (hue : Hue) :
    appearance.selectOne (ground.firstParameter + hue.number) =
      appearance.paint ground (.named ⟨.normal, hue⟩) := by
  apply selectOne_of_color
  · intro other
    cases ground <;> cases other <;> cases hue <;> rfl
  · cases ground <;> cases hue <;> rfl
  · cases ground <;> cases hue <;> rfl

theorem selectOne_bright (appearance : Appearance) (ground : Ground)
    (hue : Hue) :
    appearance.selectOne (ground.firstParameter + 60 + hue.number) =
      appearance.paint ground (.named ⟨.bright, hue⟩) := by
  apply selectOne_of_color
  · intro other
    cases ground <;> cases other <;> cases hue <;> rfl
  · cases ground <;> cases hue <;> rfl
  · cases ground <;> cases hue <;> rfl

theorem select_color (appearance : Appearance) (ground : Ground)
    (color : Color) (rest : List Nat) :
    appearance.select (color.parameters ground ++ rest) =
      (appearance.paint ground color).select rest := by
  cases color with
  | default =>
      rw [← selectOne_default]
      apply select_cons
      · cases ground <;> decide
      · cases ground <;> decide
  | named color =>
      obtain ⟨intensity, hue⟩ := color
      cases intensity with
      | normal =>
          rw [← selectOne_normal]
          apply select_cons
          · cases ground <;> cases hue <;> decide
          · cases ground <;> cases hue <;> decide
      | bright =>
          rw [← selectOne_bright]
          apply select_cons
          · cases ground <;> cases hue <;> decide
          · cases ground <;> cases hue <;> decide
  | indexed number =>
      cases ground with
      | foreground =>
          simp [Color.parameters, Ground.firstParameter, select, paint]
      | background =>
          simp [Color.parameters, Ground.firstParameter, select, paint]
  | rgb value =>
      cases ground with
      | foreground =>
          simp [Color.parameters, Ground.firstParameter, select, paint]
      | background =>
          simp [Color.parameters, Ground.firstParameter, select, paint]

theorem selectOne_set (appearance : Appearance) (effect : Effect) :
    appearance.selectOne effect.setParameter =
      { appearance with effects := appearance.effects.insert effect } := by
  have hforeground : Color.ofParameter? 30 effect.setParameter = none := by
    cases effect <;> rfl
  have hbackground : Color.ofParameter? 40 effect.setParameter = none := by
    cases effect <;> rfl
  have hset : Effect.ofSetParameter? effect.setParameter = some effect := by
    cases effect <;> rfl
  have hunset : Effect.ofUnsetParameter effect.setParameter = [] := by
    cases effect <;> rfl
  apply Appearance.ext
  · simp [selectOne, hforeground]
  · simp [selectOne, hbackground]
  · rfl
  · ext other
    simp [selectOne, hset, hunset, EffectSet.insert, eq_comm]

theorem selectOne_unset (appearance : Appearance) (effect : Effect) :
    appearance.selectOne effect.unsetParameter =
      { appearance with
        effects :=
          ⟨fun other =>
            appearance.effects.contains other &&
              other.unsetParameter != effect.unsetParameter⟩ } := by
  have hforeground : Color.ofParameter? 30 effect.unsetParameter = none := by
    cases effect <;> rfl
  have hbackground : Color.ofParameter? 40 effect.unsetParameter = none := by
    cases effect <;> rfl
  have hset : Effect.ofSetParameter? effect.unsetParameter = none := by
    cases effect <;> rfl
  have hunset (other : Effect) :
      (!(Effect.ofUnsetParameter effect.unsetParameter).contains other) =
        (other.unsetParameter != effect.unsetParameter) := by
    cases effect <;> cases other <;> rfl
  apply Appearance.ext
  · simp [selectOne, hforeground]
  · simp [selectOne, hbackground]
  · rfl
  · ext other
    simp only [selectOne, hset, hunset]
    simp

theorem select_set (appearance : Appearance) (effects : List Effect) :
    appearance.select (effects.map Effect.setParameter) =
      { appearance with
        effects :=
          ⟨fun effect =>
            appearance.effects.contains effect || effects.contains effect⟩ } := by
  induction effects generalizing appearance with
  | nil =>
      apply Appearance.ext
      · rfl
      · rfl
      · rfl
      · ext effect
        simp [select]
  | cons first rest ih =>
      rw [List.map_cons, select_cons, selectOne_set, ih]
      · apply Appearance.ext
        · rfl
        · rfl
        · rfl
        · ext effect
          simp only [EffectSet.insert, List.contains_cons]
          cases appearance.effects.contains effect <;>
            by_cases heffect : effect = first <;> simp [heffect]
      · cases first <;> decide
      · cases first <;> decide

theorem select_unset (appearance : Appearance) {parameters : List Nat}
    (hparameters :
      ∀ parameter ∈ parameters,
        ∃ effect : Effect, effect.unsetParameter = parameter) :
    appearance.select parameters =
      { appearance with
        effects :=
          ⟨fun effect =>
            appearance.effects.contains effect &&
              !parameters.contains effect.unsetParameter⟩ } := by
  induction parameters generalizing appearance with
  | nil =>
      apply Appearance.ext
      · rfl
      · rfl
      · rfl
      · ext effect
        simp [select]
  | cons first rest ih =>
      obtain ⟨unset, hunset⟩ := hparameters first List.mem_cons_self
      have hrest := fun appearance =>
        @ih appearance fun parameter hparameter =>
          hparameters parameter (List.mem_cons_of_mem _ hparameter)
      rw [select_cons, ← hunset, selectOne_unset, hrest]
      · apply Appearance.ext
        · rfl
        · rfl
        · rfl
        · ext effect
          simp only [List.contains_cons, Bool.not_or]
          rw [Bool.and_assoc]
          rfl
      · rw [← hunset]
        cases unset <;> decide
      · rw [← hunset]
        cases unset <;> decide

end Appearance

/-! ## Reading sequences -/

/-- The characters that begin an escape sequence or cut it short. -/
def sequenceMarks : List Char :=
  ['\x1b', '\x07']

/-- A terminal reads a text, shows nothing of it, and ends up as `result`. -/
structure Terminal.ReadsTo (terminal : Terminal) (text : Text)
    (result : Terminal) : Prop where
  after_eq : terminal.after text = result
  display_eq : terminal.display text = []

namespace Terminal

theorem ReadsTo.nil (terminal : Terminal) : terminal.ReadsTo [] terminal :=
  ⟨rfl, rfl⟩

theorem ReadsTo.cons {terminal result : Terminal} {char : Char} {rest : Text}
    (hshows : terminal.shows char = false)
    (hrest : (terminal.next char).ReadsTo rest result) :
    terminal.ReadsTo (char :: rest) result := by
  constructor
  · rw [after_cons, hrest.after_eq]
  · simp [display, hshows, hrest.display_eq]

theorem ReadsTo.append {terminal middle result : Terminal}
    {first second : Text} (hfirst : terminal.ReadsTo first middle)
    (hsecond : middle.ReadsTo second result) :
    terminal.ReadsTo (first ++ second) result := by
  constructor
  · rw [after_append, hfirst.after_eq, hsecond.after_eq]
  · rw [display_append, hfirst.display_eq, hfirst.after_eq,
      hsecond.display_eq]
    rfl

theorem readsTo_control {content text : Text} (appearance : Appearance)
    (htext : ∀ char ∈ text, endsControl char = false) :
    ReadsTo ⟨.control content, appearance⟩ text
      ⟨.control (content ++ text), appearance⟩ := by
  induction text generalizing content with
  | nil => simpa using ReadsTo.nil _
  | cons char rest ih =>
      have hchar := htext char List.mem_cons_self
      have hrest := @ih (content ++ [char]) fun other hother =>
        htext other (List.mem_cons_of_mem _ hother)
      apply ReadsTo.cons rfl
      simpa [next, hchar] using hrest

theorem readsTo_command {content text : Text} (appearance : Appearance)
    (htext : text.Avoids sequenceMarks) :
    ReadsTo ⟨.command content, appearance⟩ text
      ⟨.command (content ++ text), appearance⟩ := by
  induction text generalizing content with
  | nil => simpa using ReadsTo.nil _
  | cons char rest ih =>
      have hchar := htext char List.mem_cons_self
      simp only [sequenceMarks, List.mem_cons, List.not_mem_nil, or_false,
        not_or] at hchar
      have hrest := @ih (content ++ [char]) fun other hother =>
        htext other (List.mem_cons_of_mem _ hother)
      apply ReadsTo.cons rfl
      simpa [next, hchar.1, hchar.2] using hrest

theorem endsControl_eq_false_of_isDigit {char : Char}
    (hchar : char.isDigit = true) : endsControl char = false := by
  simp only [Char.isDigit, Bool.and_eq_true, decide_eq_true_eq] at hchar
  simp only [endsControl, Bool.and_eq_false_iff, decide_eq_false_iff_not]
  left
  intro hle
  have hlow : '@'.val ≤ char.val := hle
  have hhigh : char.val ≤ '9'.val := hchar.2
  exact absurd (UInt32.le_trans hlow hhigh) (by decide)

theorem endsControl_eq_false_of_mem_parameterText {parameters : List Nat}
    {char : Char} (hchar : char ∈ parameterText parameters) :
    endsControl char = false := by
  rcases mem_parameterText hchar with hdigit | rfl
  · exact endsControl_eq_false_of_isDigit hdigit
  · decide

theorem readsTo_graphicCode (appearance : Appearance)
    (parameters : List Nat) :
    ReadsTo ⟨.ground, appearance⟩ (graphicCode parameters)
      ⟨.ground, appearance.select parameters⟩ := by
  by_cases hparameters : parameters = []
  · subst parameters
    exact ReadsTo.nil _
  · have hcontent :
        ∀ char ∈ parameterText parameters, endsControl char = false :=
      fun char hchar => endsControl_eq_false_of_mem_parameterText hchar
    have hlast :
        ReadsTo ⟨.control (parameterText parameters), appearance⟩ ['m']
          ⟨.ground, appearance.select parameters⟩ := by
      apply ReadsTo.cons rfl
      have hends : endsControl 'm' = true := by decide
      simpa [next, hends, Appearance.control,
        parameters?_parameterText hparameters] using ReadsTo.nil _
    rw [graphicCode_of_ne_nil hparameters]
    apply ReadsTo.cons rfl
    apply ReadsTo.cons rfl
    exact (readsTo_control appearance hcontent).append hlast

theorem avoids_linkBody {target : Text}
    (htarget : target.Avoids sequenceMarks) :
    Text.Avoids (['8', ';', ';'] ++ target) sequenceMarks := by
  have hnumber : Text.Avoids ['8', ';', ';'] sequenceMarks := by decide
  intro char hchar
  rcases List.mem_append.mp hchar with hfirst | hsecond
  · exact hnumber char hfirst
  · exact htarget char hsecond

theorem readsTo_linkCode (appearance : Appearance) {target : Text}
    (htarget : target.Avoids sequenceMarks) :
    ReadsTo ⟨.ground, appearance⟩ (linkCode target)
      ⟨.ground, { appearance with link := target }⟩ := by
  have hlast :
      ReadsTo ⟨.command (['8', ';', ';'] ++ target), appearance⟩
        ['\x1b', '\\'] ⟨.ground, { appearance with link := target }⟩ := by
    apply ReadsTo.cons rfl
    apply ReadsTo.cons rfl
    simpa [next, Appearance.command, linkTarget?, Text.cut?] using
      ReadsTo.nil _
  rw [linkCode_eq]
  apply ReadsTo.cons rfl
  apply ReadsTo.cons rfl
  exact (readsTo_command appearance (avoids_linkBody htarget)).append hlast

theorem display_of_not_mem {text : Text} (htext : '\x1b' ∉ text)
    (appearance : Appearance) :
    display ⟨.ground, appearance⟩ text = text.map (⟨·, appearance⟩) ∧
      after ⟨.ground, appearance⟩ text = ⟨.ground, appearance⟩ := by
  induction text with
  | nil => exact ⟨rfl, rfl⟩
  | cons char rest ih =>
      simp only [List.mem_cons, not_or] at htext
      have hchar : char ≠ '\x1b' := Ne.symm htext.1
      have hrest := ih htext.2
      constructor
      · simp [display, shows, next, hchar, hrest.1]
      · simp [next, hchar, hrest.2]

end Terminal

/-! ## Codes of a style -/

namespace Appearance

def paint? (appearance : Appearance) : Ground → Option Color → Appearance
  | .foreground, color? =>
      { appearance with foreground := color?.getD appearance.foreground }
  | .background, color? =>
      { appearance with background := color?.getD appearance.background }

theorem select_groundSet (appearance : Appearance) (style : Style)
    (depth : ColorDepth) (ground : Ground) (rest : List Nat) :
    appearance.select (style.groundSetParameters depth ground ++ rest) =
      (appearance.paint? ground
        ((style.color? ground).map (.reduce depth))).select rest := by
  unfold Style.groundSetParameters
  cases style.color? ground with
  | some color =>
      rw [select_color]
      cases ground <;> rfl
  | none => cases ground <;> rfl

theorem select_groundUnset (appearance : Appearance) (style : Style)
    (ground : Ground) (rest : List Nat) :
    appearance.select (style.groundUnsetParameters ground ++ rest) =
      (appearance.paint? ground
        ((style.color? ground).map fun _ => .default)).select rest := by
  unfold Style.groundUnsetParameters
  cases style.color? ground with
  | some color =>
      have hcolor := select_color appearance ground .default rest
      simp only [Color.parameters] at hcolor
      rw [hcolor]
      cases ground <;> rfl
  | none => cases ground <;> rfl

theorem select_setParameters (appearance : Appearance) (style : Style)
    (depth : ColorDepth) :
    appearance.select (style.setParameters depth) =
      { appearance.opened style depth with link := appearance.link } := by
  rw [Style.setParameters, List.append_assoc, select_groundSet,
    select_groundSet, select_set]
  apply Appearance.ext
  · rfl
  · rfl
  · rfl
  · ext effect
    have hmem :
        style.effects.toList.contains effect =
          style.effects.contains effect := by
      rw [Bool.eq_iff_iff, List.contains_iff_mem, EffectSet.mem_toList]
    simp only [opened, EffectSet.union, paint?, hmem]

theorem select_unsetParameters (appearance : Appearance) (style : Style) :
    appearance.select style.unsetParameters =
      { appearance.closed style with link := appearance.link } := by
  have hparameters :
      ∀ parameter ∈
          (style.effects.toList.map Effect.unsetParameter).eraseDups,
        ∃ effect : Effect, effect.unsetParameter = parameter := by
    intro parameter hparameter
    obtain ⟨effect, -, heffect⟩ :=
      List.mem_map.mp (List.mem_eraseDups.mp hparameter)
    exact ⟨effect, heffect⟩
  rw [Style.unsetParameters, List.append_assoc, select_groundUnset,
    select_groundUnset, select_unset _ hparameters]
  apply Appearance.ext
  · simp only [paint?, closed]
    cases style.color? .foreground <;> rfl
  · simp only [paint?, closed]
    cases style.color? .background <;> rfl
  · rfl
  · ext effect
    have hmem :
        (style.effects.toList.map Effect.unsetParameter).eraseDups.contains
            effect.unsetParameter =
          (style.effects.toList.map Effect.unsetParameter).contains
            effect.unsetParameter := by
      rw [Bool.eq_iff_iff, List.contains_iff_mem, List.contains_iff_mem,
        List.mem_eraseDups]
    simp only [paint?, closed, hmem]

end Appearance

namespace Terminal

theorem readsTo_opening {style : Style} {depth : ColorDepth}
    (hdepth : depth.emitsCodes = true) (hlink : style.LinkAvoids sequenceMarks)
    (appearance : Appearance) :
    ReadsTo ⟨.ground, appearance⟩ (style.codes depth).opening
      ⟨.ground, appearance.opened style depth⟩ := by
  have hgraphic :=
    readsTo_graphicCode appearance (style.setParameters depth)
  rw [Appearance.select_setParameters] at hgraphic
  cases htarget : style.link with
  | some target =>
      have hcodes :
          (style.codes depth).opening =
            graphicCode (style.setParameters depth) ++ linkCode target := by
        simp [Style.codes, hdepth, htarget]
      rw [hcodes]
      apply hgraphic.append
      have hreads :=
        readsTo_linkCode
          { appearance.opened style depth with link := appearance.link }
          (hlink target htarget)
      simpa [Appearance.opened, htarget] using hreads
  | none =>
      have hcodes :
          (style.codes depth).opening =
            graphicCode (style.setParameters depth) := by
        simp [Style.codes, hdepth, htarget]
      rw [hcodes]
      simpa [Appearance.opened, htarget] using hgraphic

theorem readsTo_closing {depth : ColorDepth}
    (hdepth : depth.emitsCodes = true) (style : Style)
    (appearance : Appearance) :
    ReadsTo ⟨.ground, appearance⟩ (style.codes depth).closing
      ⟨.ground, appearance.closed style⟩ := by
  cases htarget : style.link with
  | some target =>
      have hcodes :
          (style.codes depth).closing =
            linkCode [] ++ graphicCode style.unsetParameters := by
        simp [Style.codes, hdepth, htarget]
      have hempty : Text.Avoids [] sequenceMarks := by simp [Text.Avoids]
      have hgraphic :=
        readsTo_graphicCode { appearance with link := [] }
          style.unsetParameters
      rw [Appearance.select_unsetParameters] at hgraphic
      rw [hcodes]
      apply (readsTo_linkCode appearance hempty).append
      simpa [Appearance.closed, htarget] using hgraphic
  | none =>
      have hcodes :
          (style.codes depth).closing =
            graphicCode style.unsetParameters := by
        simp [Style.codes, hdepth, htarget]
      have hgraphic := readsTo_graphicCode appearance style.unsetParameters
      rw [Appearance.select_unsetParameters] at hgraphic
      rw [hcodes]
      simpa [Appearance.closed, htarget] using hgraphic

/-- A text between the codes of a style is shown in that style, and leaves
nothing of the style behind. -/
theorem display_around {style : Style} {depth : ColorDepth} {text : Text}
    (hdepth : depth.emitsCodes = true) (hlink : style.LinkAvoids sequenceMarks)
    (htext : '\x1b' ∉ text) :
    ({} : Terminal).display ((style.codes depth).around text) =
        text.map (⟨·, style.appearance depth⟩) ∧
      ({} : Terminal).after ((style.codes depth).around text) = {} := by
  by_cases hempty : text = []
  · subst text
    exact ⟨rfl, rfl⟩
  · have hopening := readsTo_opening hdepth hlink {}
    rw [Appearance.opened_initial] at hopening
    have hshown := display_of_not_mem htext (style.appearance depth)
    have hclosing :=
      readsTo_closing hdepth style (style.appearance depth)
    rw [Appearance.closed_appearance] at hclosing
    have hcodes :
        (style.codes depth).around text =
          (style.codes depth).opening ++
            (text ++ (style.codes depth).closing) := by
      simp [Codes.around, hempty]
    rw [hcodes]
    constructor
    · rw [display_append, hopening.display_eq, hopening.after_eq,
        display_append, hshown.1, hshown.2, hclosing.display_eq]
      simp
    · rw [after_append, hopening.after_eq, after_append, hshown.2,
        hclosing.after_eq]

end Terminal

/-! ## Codes set and taken back -/

/-- Whether an effect is unset along with the given ones. -/
def EffectSet.unsets (given : EffectSet) : Effect → Bool
  | .bold | .dim => given.contains .bold || given.contains .dim
  | effect => given.contains effect

/-- The appearance after a style was set and taken back: what the style gives is
back at its default, and all else is as it was. -/
def Appearance.reverted (appearance : Appearance) (style : Style) :
    Appearance where
  foreground :=
    if (style.color? .foreground).isSome then .default
    else appearance.foreground
  background :=
    if (style.color? .background).isSome then .default
    else appearance.background
  link := if style.link.isSome then [] else appearance.link
  effects :=
    ⟨fun effect =>
      appearance.effects.contains effect && !style.effects.unsets effect⟩

/-- No attribute of the style has a meaning for a terminal. -/
def Style.GivesNothing (style : Style) : Prop :=
  style.color? .foreground = none ∧ style.color? .background = none ∧
    style.effects = .empty ∧ style.link = none

theorem Effect.unsetParameter_eq_iff (first second : Effect) :
    first.unsetParameter = second.unsetParameter ↔
      first = second ∨
        ((first = .bold ∨ first = .dim) ∧ (second = .bold ∨ second = .dim)) := by
  cases first <;> cases second <;> decide

theorem EffectSet.contains_map_unsetParameter (given : EffectSet)
    (effect : Effect) :
    (given.toList.map Effect.unsetParameter).contains effect.unsetParameter =
      given.unsets effect := by
  have hmem :
      (∃ other, given.contains other = true ∧
        other.unsetParameter = effect.unsetParameter) ↔
          given.unsets effect = true := by
    simp only [Effect.unsetParameter_eq_iff]
    cases effect with
    | dim => simpa [unsets, and_or_left, exists_or] using Or.inr
    | _ => simp [unsets, and_or_left, exists_or]
  rw [Bool.eq_iff_iff, ← hmem, List.contains_iff_mem, List.mem_map]
  simp only [mem_toList]

theorem EffectSet.unsets_of_contains {given : EffectSet} {effect : Effect}
    (heffect : given.contains effect = true) : given.unsets effect = true := by
  cases effect <;> simp [unsets, heffect]

theorem Appearance.closed_opened (appearance : Appearance) (style : Style)
    (depth : ColorDepth) :
    (appearance.opened style depth).closed style =
      appearance.reverted style := by
  apply Appearance.ext
  · simp only [closed, opened, reverted]
    cases style.color? .foreground <;> rfl
  · simp only [closed, opened, reverted]
    cases style.color? .background <;> rfl
  · simp only [closed, opened, reverted]
    cases style.link <;> rfl
  · ext effect
    simp only [closed, opened, reverted, EffectSet.union,
      EffectSet.contains_map_unsetParameter]
    cases hgiven : style.effects.contains effect with
    | true => simp [EffectSet.unsets_of_contains hgiven]
    | false => simp

theorem ColorDepth.emitsCodes_eq_false_iff (depth : ColorDepth) :
    depth.emitsCodes = false ↔ depth = .plain := by
  cases depth <;> decide

theorem graphicCode_eq_nil_iff (parameters : List Nat) :
    graphicCode parameters = [] ↔ parameters = [] := by
  cases parameters <;> simp [graphicCode]

theorem linkCode_ne_nil (target : Text) : linkCode target ≠ [] := by
  simp [linkCode_eq]

theorem EffectSet.toList_eq_nil_iff (set : EffectSet) :
    set.toList = [] ↔ set = .empty :=
  toList_inj set .empty

theorem Color.parameters_ne_nil (color : Color) (ground : Ground) :
    color.parameters ground ≠ [] := by
  cases color with
  | default => simp [parameters]
  | named color =>
      obtain ⟨intensity, hue⟩ := color
      cases intensity <;> simp [parameters]
  | indexed number => simp [parameters]
  | rgb value => simp [parameters]

namespace Style

theorem groundSetParameters_eq_nil_iff (style : Style) (depth : ColorDepth)
    (ground : Ground) :
    style.groundSetParameters depth ground = [] ↔
      style.color? ground = none := by
  unfold groundSetParameters
  cases style.color? ground with
  | none => simp
  | some color => simp [Color.parameters_ne_nil]

theorem groundUnsetParameters_eq_nil_iff (style : Style) (ground : Ground) :
    style.groundUnsetParameters ground = [] ↔ style.color? ground = none := by
  unfold groundUnsetParameters
  cases style.color? ground <;> simp

theorem setParameters_eq_nil_iff (style : Style) (depth : ColorDepth) :
    style.setParameters depth = [] ↔
      style.color? .foreground = none ∧ style.color? .background = none ∧
        style.effects = .empty := by
  simp only [setParameters, List.append_eq_nil_iff, List.map_eq_nil_iff,
    groundSetParameters_eq_nil_iff, EffectSet.toList_eq_nil_iff, and_assoc]

theorem unsetParameters_eq_nil_iff (style : Style) :
    style.unsetParameters = [] ↔
      style.color? .foreground = none ∧ style.color? .background = none ∧
        style.effects = .empty := by
  have hdups (list : List Nat) : list.eraseDups = [] ↔ list = [] := by
    simp only [List.eq_nil_iff_forall_not_mem, List.mem_eraseDups]
  simp only [unsetParameters, List.append_eq_nil_iff, hdups,
    List.map_eq_nil_iff, groundUnsetParameters_eq_nil_iff,
    EffectSet.toList_eq_nil_iff, and_assoc]

/-- Either code is empty just if the style gives nothing, or if the terminal
takes no codes. -/
theorem codes_eq_nil_iff (style : Style) (depth : ColorDepth) :
    ((style.codes depth).opening = [] ↔
        depth = .plain ∨ style.GivesNothing) ∧
      ((style.codes depth).closing = [] ↔
        depth = .plain ∨ style.GivesNothing) := by
  unfold codes GivesNothing
  rw [← depth.emitsCodes_eq_false_iff]
  cases depth.emitsCodes with
  | false => simp [Codes.none]
  | true =>
      cases style.link with
      | some target => simp [linkCode_ne_nil]
      | none =>
          simp [graphicCode_eq_nil_iff, setParameters_eq_nil_iff,
            unsetParameters_eq_nil_iff]

/-- The opening code sets exactly what the style gives, the closing code takes
exactly that back, and neither code is empty alone. -/
theorem readsTo_codes (style : Style) (depth : ColorDepth) :
    let codes := style.codes depth
    (depth.emitsCodes = true → style.LinkAvoids sequenceMarks →
        ∀ appearance : Appearance,
          Terminal.ReadsTo ⟨.ground, appearance⟩ codes.opening
              ⟨.ground, appearance.opened style depth⟩ ∧
            Terminal.ReadsTo ⟨.ground, appearance⟩
              (codes.opening ++ codes.closing)
              ⟨.ground, appearance.reverted style⟩) ∧
      (codes.opening = [] ↔ codes.closing = []) ∧
        (codes.opening = [] ↔ depth = .plain ∨ style.GivesNothing) := by
  intro codes
  obtain ⟨hopening, hclosing⟩ := style.codes_eq_nil_iff depth
  refine ⟨?_, hopening.trans hclosing.symm, hopening⟩
  intro hdepth hlink appearance
  have hopened := Terminal.readsTo_opening hdepth hlink appearance
  have hclosed :=
    Terminal.readsTo_closing hdepth style (appearance.opened style depth)
  rw [Appearance.closed_opened] at hclosed
  exact ⟨hopened, hopened.append hclosed⟩

/-- A bold link on a terminal that shows another link, and dim and italic text:
the terminal keeps the background and italics, and loses the rest. -/
theorem readsTo_codes_bold_link :
    let style : Style :=
      { foreground := some "#F80".toList
        background := some "glow".toList
        link := some "docs".toList
        effects := .ofList [.bold] }
    let before : Appearance :=
      { background := .named ⟨.bright, .blue⟩
        link := "old".toList
        effects := .ofList [.dim, .italic] }
    let opening := "\x1b[38;5;214;1m\x1b]8;;docs\x1b\\".toList
    let closing := "\x1b]8;;\x1b\\\x1b[39;22m".toList
    style.codes .indexed = ⟨opening, closing⟩ ∧
      Terminal.ReadsTo ⟨.ground, before⟩ opening
          ⟨.ground,
            { foreground := .indexed 214
              background := .named ⟨.bright, .blue⟩
              link := "docs".toList
              effects := .ofList [.bold, .dim, .italic] }⟩ ∧
        Terminal.ReadsTo ⟨.ground, before⟩ (opening ++ closing)
          ⟨.ground,
            { background := .named ⟨.bright, .blue⟩
              effects := .ofList [.italic] }⟩ := by
  intro style before opening closing
  have hcodes : style.codes .indexed = ⟨opening, closing⟩ := by
    decide +kernel
  have hopened :
      before.opened style .indexed =
        { foreground := .indexed 214
          background := .named ⟨.bright, .blue⟩
          link := "docs".toList
          effects := .ofList [.bold, .dim, .italic] } := by
    apply Appearance.ext
    · decide +kernel
    · decide +kernel
    · rfl
    · exact (EffectSet.toList_inj _ _).mp (by decide)
  have hreverted :
      before.reverted style =
        { background := .named ⟨.bright, .blue⟩
          effects := .ofList [.italic] } := by
    apply Appearance.ext
    · decide +kernel
    · decide +kernel
    · rfl
    · exact (EffectSet.toList_inj _ _).mp (by decide)
  have hreads := (readsTo_codes style .indexed).1 rfl (by decide) before
  rw [hcodes, hopened, hreverted] at hreads
  exact ⟨hcodes, hreads⟩

end Style

end TerminalMarkup
