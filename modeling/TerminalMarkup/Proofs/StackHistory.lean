import Mathlib.Data.List.Infix
import TerminalMarkup.Proofs.AttributeReading

/-!
# Stacks of styles after any changes

A pushed style stays as long as the stack is not cleared and at no place behind
it have more styles been taken off than put on.  The latest of these styles with
a color or a link decides over it, and all of them give their effects.
-/

namespace TerminalMarkup

inductive StackChange
  | push (style : Style)
  | pop
  | clear
deriving DecidableEq

namespace StackChange

def isPush : StackChange → Bool
  | push _ => true
  | pop => false
  | clear => false

def isPop : StackChange → Bool
  | push _ => false
  | pop => true
  | clear => false

/-- Changes that leave alone what the stack held before them: none of them
clears it, and at no place have more styles been taken off than put on. -/
structure StayAbove (changes : List StackChange) : Prop where
  not_cleared : clear ∉ changes
  pops_le :
    ∀ front, front <+: changes → front.countP isPop ≤ front.countP isPush

/-- The style that was pushed behind the changes `before` is still on the stack
behind all the changes. -/
def Holds (changes before : List StackChange) (style : Style) : Prop :=
  ∃ behind, changes = before ++ push style :: behind ∧ StayAbove behind

theorem stayAbove_iff_inits (changes : List StackChange) :
    StayAbove changes ↔
      clear ∉ changes ∧
        ∀ front ∈ changes.inits, front.countP isPop ≤ front.countP isPush := by
  simp only [List.mem_inits]
  exact ⟨fun h => ⟨h.1, h.2⟩, fun h => ⟨h.1, h.2⟩⟩

instance (changes : List StackChange) : Decidable (StayAbove changes) :=
  decidable_of_iff _ (stayAbove_iff_inits changes).symm

theorem holds_iff_drop (changes before : List StackChange) (style : Style) :
    Holds changes before style ↔
      before ++ [push style] <+: changes ∧
        StayAbove (changes.drop (before.length + 1)) := by
  constructor
  · rintro ⟨behind, rfl, hbehind⟩
    exact ⟨⟨behind, by simp⟩, by simpa using hbehind⟩
  · rintro ⟨⟨behind, rfl⟩, hbehind⟩
    exact ⟨behind, by simp, by simpa using hbehind⟩

instance (changes before : List StackChange) (style : Style) :
    Decidable (Holds changes before style) :=
  decidable_of_iff _ (holds_iff_drop changes before style).symm

theorem StayAbove.of_append {front back : List StackChange}
    (hchanges : StayAbove (front ++ back)) : StayAbove front where
  not_cleared hclear :=
    hchanges.not_cleared (List.mem_append_left back hclear)
  pops_le first hfirst :=
    hchanges.pops_le first (hfirst.trans (List.prefix_append front back))

theorem stayAbove_concat_iff (changes : List StackChange)
    (change : StackChange) :
    StayAbove (changes ++ [change]) ↔
      StayAbove changes ∧ change ≠ clear ∧
        (changes ++ [change]).countP isPop ≤
          (changes ++ [change]).countP isPush := by
  constructor
  · intro hchanges
    refine ⟨hchanges.of_append, ?_, hchanges.pops_le _ List.prefix_rfl⟩
    rintro rfl
    exact hchanges.not_cleared List.mem_concat_self
  · rintro ⟨hchanges, hchange, hcount⟩
    constructor
    · intro hclear
      rcases List.mem_append.mp hclear with hbefore | hlast
      · exact hchanges.not_cleared hbefore
      · exact hchange (List.mem_singleton.mp hlast).symm
    · intro front hfront
      rcases List.prefix_concat_iff.mp hfront with rfl | hbefore
      · exact hcount
      · exact hchanges.pops_le front hbefore

theorem stayAbove_concat_push_iff (changes : List StackChange)
    (style : Style) :
    StayAbove (changes ++ [push style]) ↔ StayAbove changes := by
  rw [stayAbove_concat_iff]
  constructor
  · exact And.left
  · intro hchanges
    have hcount := hchanges.pops_le changes List.prefix_rfl
    refine ⟨hchanges, by simp, ?_⟩
    rw [List.countP_append, List.countP_append]
    exact Nat.add_le_add hcount (Nat.zero_le 1)

theorem stayAbove_concat_pop_iff (changes : List StackChange) :
    StayAbove (changes ++ [pop]) ↔
      StayAbove changes ∧ changes.countP isPop < changes.countP isPush := by
  have hcount :
      (changes ++ [pop]).countP isPop ≤ (changes ++ [pop]).countP isPush ↔
        changes.countP isPop < changes.countP isPush := by
    rw [List.countP_append, List.countP_append]
    exact Iff.rfl
  rw [stayAbove_concat_iff, hcount]
  simp

theorem not_stayAbove_concat_clear (changes : List StackChange) :
    ¬ StayAbove (changes ++ [clear]) :=
  fun hchanges => hchanges.not_cleared List.mem_concat_self

end StackChange

namespace StyleStack

open StackChange

def change (stack : StyleStack) : StackChange → StyleStack
  | .push style => stack.push style
  | .pop => stack.pop
  | .clear => empty

def afterChanges (stack : StyleStack) (changes : List StackChange) :
    StyleStack :=
  changes.foldl change stack

@[simp] theorem change_push (stack : StyleStack) (style : Style) :
    stack.change (.push style) = stack.push style := rfl

@[simp] theorem change_pop (stack : StyleStack) :
    stack.change .pop = stack.pop := rfl

@[simp] theorem change_clear (stack : StyleStack) :
    stack.change .clear = empty := rfl

theorem afterChanges_append (stack : StyleStack)
    (first second : List StackChange) :
    stack.afterChanges (first ++ second) =
      (stack.afterChanges first).afterChanges second :=
  List.foldl_append

theorem afterChanges_concat (stack : StyleStack) (changes : List StackChange)
    (change : StackChange) :
    stack.afterChanges (changes ++ [change]) =
      (stack.afterChanges changes).change change := by
  rw [afterChanges_append]
  rfl

/-! ## Layers that stay -/

/-- Changes that stay above a stack put as many layers on it as they have more
pushes than pops. -/
theorem exists_layers_of_stayAbove (stack : StyleStack)
    {changes : List StackChange} (hchanges : StayAbove changes) :
    ∃ upper,
      (stack.afterChanges changes).layers = upper ++ stack.layers ∧
        upper.length + changes.countP isPop = changes.countP isPush := by
  induction changes using List.reverseRecOn with
  | nil => exact ⟨[], rfl, rfl⟩
  | append_singleton front change ih =>
      rw [afterChanges_concat, List.countP_append, List.countP_append]
      cases change with
      | push style =>
          obtain ⟨upper, hlayers, hlength⟩ :=
            ih ((stayAbove_concat_push_iff front style).mp hchanges)
          refine ⟨style :: upper, congrArg (style :: ·) hlayers, ?_⟩
          show upper.length + 1 + (_ + 0) = _ + 1
          omega
      | pop =>
          obtain ⟨hfront, hcount⟩ := (stayAbove_concat_pop_iff front).mp hchanges
          obtain ⟨upper, hlayers, hlength⟩ := ih hfront
          -- There is a layer to take off, since the counts leave room for it.
          obtain ⟨top, below, rfl⟩ :=
            List.exists_cons_of_length_pos (show 0 < upper.length by omega)
          rw [List.length_cons] at hlength
          refine ⟨below, ?_, ?_⟩
          · rw [change_pop, pop, hlayers]
            rfl
          · show below.length + (_ + 1) = _ + 0
            omega
      | clear => exact absurd hchanges (not_stayAbove_concat_clear front)

theorem depth_of_stayAbove (stack : StyleStack) {changes : List StackChange}
    (hchanges : StayAbove changes) :
    (stack.afterChanges changes).depth + changes.countP isPop =
      stack.depth + changes.countP isPush := by
  obtain ⟨upper, hlayers, hlength⟩ :=
    stack.exists_layers_of_stayAbove hchanges
  rw [depth, depth, hlayers, List.length_append]
  omega

theorem exists_layers_of_holds {changes before : List StackChange}
    {style : Style} (hholds : Holds changes before style) :
    ∃ upper,
      (empty.afterChanges changes).layers =
        upper ++ style :: (empty.afterChanges before).layers := by
  obtain ⟨behind, rfl, hbehind⟩ := hholds
  obtain ⟨upper, hlayers, -⟩ :=
    ((empty.afterChanges before).push style).exists_layers_of_stayAbove hbehind
  refine ⟨upper, ?_⟩
  rw [afterChanges_append]
  exact hlayers

theorem holds_concat_push {changes before : List StackChange} {style : Style}
    (hholds : Holds changes before style) (pushed : Style) :
    Holds (changes ++ [.push pushed]) before style := by
  obtain ⟨behind, rfl, hbehind⟩ := hholds
  have hpushed := (stayAbove_concat_push_iff behind pushed).mpr hbehind
  exact ⟨behind ++ [.push pushed], by simp, hpushed⟩

/-- Behind a pop all styles stay but the topmost. -/
theorem holds_concat_pop_iff (changes before : List StackChange)
    (style : Style) :
    Holds (changes ++ [.pop]) before style ↔
      Holds changes before style ∧
        (empty.afterChanges before).depth + 1 <
          (empty.afterChanges changes).depth := by
  have hdepth (behind : List StackChange) (hbehind : StayAbove behind) :
      (empty.afterChanges (before ++ .push style :: behind)).depth +
          behind.countP isPop =
        (empty.afterChanges before).depth + 1 + behind.countP isPush := by
    rw [afterChanges_append]
    exact depth_of_stayAbove _ hbehind
  constructor
  · rintro ⟨behind, hsplit, hbehind⟩
    rcases behind.eq_nil_or_concat' with rfl | ⟨behind, last, rfl⟩
    · have hlast := (List.append_inj' hsplit rfl).2
      simp at hlast
    · rw [← List.cons_append, ← List.append_assoc] at hsplit
      obtain ⟨rfl, hlast⟩ := List.append_inj' hsplit rfl
      obtain rfl := (List.cons.inj hlast).1
      obtain ⟨hstays, hcount⟩ := (stayAbove_concat_pop_iff behind).mp hbehind
      have hlayers := hdepth behind hstays
      exact ⟨⟨behind, rfl, hstays⟩, by omega⟩
  · rintro ⟨⟨behind, rfl, hbehind⟩, habove⟩
    have hlayers := hdepth behind hbehind
    have hpopped :=
      (stayAbove_concat_pop_iff behind).mpr ⟨hbehind, by omega⟩
    exact ⟨behind ++ [.pop], by simp, hpopped⟩

/-- Every layer of the stack is from a push that stays, and the layers below it
are those from before that push. -/
theorem exists_holds_of_layers {changes : List StackChange} {style : Style}
    {upper lower : List Style}
    (hlayers :
      (empty.afterChanges changes).layers = upper ++ style :: lower) :
    ∃ before, Holds changes before style ∧
      (empty.afterChanges before).layers = lower := by
  induction changes using List.reverseRecOn generalizing upper with
  | nil => simp [afterChanges, empty] at hlayers
  | append_singleton front change ih =>
      rw [afterChanges_concat] at hlayers
      cases change with
      | push pushed =>
          cases upper with
          | nil =>
              obtain ⟨rfl, rfl⟩ := List.cons.inj hlayers
              exact ⟨front, ⟨[], rfl, by decide⟩, rfl⟩
          | cons top below =>
              obtain ⟨before, hholds, hlower⟩ := ih (List.cons.inj hlayers).2
              exact ⟨before, holds_concat_push hholds pushed, hlower⟩
      | pop =>
          have hbelow :
              (empty.afterChanges front).layers.tail =
                upper ++ style :: lower := hlayers
          have hfront :
              ∃ top, (empty.afterChanges front).layers =
                top :: (upper ++ style :: lower) := by
            cases hall : (empty.afterChanges front).layers with
            | nil => simp [hall] at hbelow
            | cons top below =>
                rw [hall, List.tail_cons] at hbelow
                exact ⟨top, by rw [hbelow]⟩
          obtain ⟨top, htop⟩ := hfront
          obtain ⟨before, hholds, hlower⟩ := @ih (top :: upper) htop
          refine ⟨before, (holds_concat_pop_iff _ _ _).mpr ⟨hholds, ?_⟩, hlower⟩
          rw [depth, depth, hlower, htop, List.length_cons, List.length_append,
            List.length_cons]
          omega
      | clear => simp [empty] at hlayers

theorem holds_of_length_lt {changes before later : List StackChange}
    {style other : Style} (hholds : Holds changes before style)
    (hlater : Holds changes later other)
    (hlength : before.length < later.length) : Holds later before style := by
  obtain ⟨behind, rfl, hbehind⟩ := hholds
  obtain ⟨rest, hsplit, -⟩ := hlater
  have hprefix : before ++ [.push style] <+: later := by
    refine List.prefix_of_prefix_length_le ⟨behind, by simp⟩ ⟨_, hsplit.symm⟩ ?_
    rw [List.length_append, List.length_singleton]
    exact hlength
  obtain ⟨between, rfl⟩ := hprefix
  have hbetween : behind = between ++ .push other :: rest := by
    simpa using hsplit
  rw [hbetween] at hbehind
  exact ⟨between, by simp, hbehind.of_append⟩

theorem depth_lt_of_holds {changes before : List StackChange} {style : Style}
    (hholds : Holds changes before style) :
    (empty.afterChanges before).depth < (empty.afterChanges changes).depth := by
  obtain ⟨upper, hlayers⟩ := exists_layers_of_holds hholds
  rw [depth, depth, hlayers, List.length_append, List.length_cons]
  omega

/-- Pushes that stay come in the order of the layers they made. -/
theorem length_lt_of_depth_lt {changes before later : List StackChange}
    {style other : Style} (hholds : Holds changes before style)
    (hlater : Holds changes later other)
    (hdepth :
      (empty.afterChanges before).depth < (empty.afterChanges later).depth) :
    before.length < later.length := by
  rcases Nat.lt_trichotomy before.length later.length with hlt | heq | hgt
  · exact hlt
  · obtain ⟨_, hfirst, -⟩ := hholds
    obtain ⟨_, hsecond, -⟩ := hlater
    rw [hfirst] at hsecond
    rw [(List.append_inj hsecond heq).1] at hdepth
    exact absurd hdepth (Nat.lt_irrefl _)
  · have hlower := depth_lt_of_holds (holds_of_length_lt hlater hholds hgt)
    exact absurd hdepth (Nat.lt_asymm hlower)

/-! ## The style in force -/

/-- The attributes that a style may leave open: all but the effects. -/
def openParts : List (Style → Option Text) :=
  [Style.foreground, Style.background, Style.link]

theorem mem_openParts_iff (part : Style → Option Text) :
    part ∈ openParts ↔
      part = Style.foreground ∨ part = Style.background ∨ part = Style.link := by
  simp [openParts]

theorem part_empty {part : Style → Option Text} (hpart : part ∈ openParts) :
    part .empty = none := by
  rcases (mem_openParts_iff part).mp hpart with rfl | rfl | rfl <;> rfl

theorem part_overlay {part : Style → Option Text} (hpart : part ∈ openParts)
    (base top : Style) : part (base.overlay top) = (part top).or (part base) := by
  rcases (mem_openParts_iff part).mp hpart with rfl | rfl | rfl <;> rfl

theorem current_cons (top : Style) (below : List Style) :
    current ⟨top :: below⟩ = (current ⟨below⟩).overlay top :=
  current_push ⟨below⟩ top

theorem part_current {part : Style → Option Text} (hpart : part ∈ openParts)
    (stack : StyleStack) : part stack.current = stack.layers.findSome? part := by
  obtain ⟨layers⟩ := stack
  induction layers with
  | nil => exact part_empty hpart
  | cons top below ih =>
      rw [current_cons, part_overlay hpart, ih, List.findSome?_cons]
      cases part top <;> rfl

theorem contains_current (stack : StyleStack) (effect : Effect) :
    stack.current.effects.contains effect = true ↔
      ∃ layer ∈ stack.layers, layer.effects.contains effect = true := by
  obtain ⟨layers⟩ := stack
  induction layers with
  | nil => simp [current, Style.empty, EffectSet.empty]
  | cons top below ih =>
      rw [current_cons]
      simp only [Style.overlay, EffectSet.union, Bool.or_eq_true, ih,
        List.exists_mem_cons_iff]
      exact or_comm

theorem part_current_eq_some_iff {part : Style → Option Text}
    (hpart : part ∈ openParts) (changes : List StackChange) (value : Text) :
    part (empty.afterChanges changes).current = some value ↔
      ∃ before style, Holds changes before style ∧ part style = some value ∧
        ∀ later other, Holds changes later other →
          before.length < later.length → part other = none := by
  rw [part_current hpart, List.findSome?_eq_some_iff]
  constructor
  · rintro ⟨upper, style, lower, hlayers, hvalue, hnone⟩
    obtain ⟨before, hholds, hlower⟩ := exists_holds_of_layers hlayers
    refine ⟨before, style, hholds, hvalue, ?_⟩
    intro later other hlater hlength
    obtain ⟨above, habove⟩ := exists_layers_of_holds hlater
    obtain ⟨between, hbetween⟩ :=
      exists_layers_of_holds (holds_of_length_lt hholds hlater hlength)
    have hupper : upper = above ++ other :: between := by
      rw [habove, hbetween, hlower, ← List.cons_append, ← List.append_assoc]
        at hlayers
      exact (List.append_cancel_right hlayers).symm
    exact hnone other (by simp [hupper])
  · rintro ⟨before, style, hholds, hvalue, hnone⟩
    obtain ⟨upper, hlayers⟩ := exists_layers_of_holds hholds
    refine ⟨upper, style, _, hlayers, hvalue, ?_⟩
    intro other hother
    obtain ⟨above, between, rfl⟩ := List.append_of_mem hother
    rw [List.append_assoc, List.cons_append] at hlayers
    obtain ⟨later, hlater, hbetween⟩ := exists_holds_of_layers hlayers
    have hdepth :
        (empty.afterChanges before).depth < (empty.afterChanges later).depth := by
      rw [depth, depth, hbetween, List.length_append, List.length_cons]
      omega
    exact hnone later other hlater (length_lt_of_depth_lt hholds hlater hdepth)

theorem holds_iff_mem_layers (changes : List StackChange) (style : Style) :
    (∃ before, Holds changes before style) ↔
      style ∈ (empty.afterChanges changes).layers := by
  constructor
  · rintro ⟨before, hholds⟩
    obtain ⟨upper, hlayers⟩ := exists_layers_of_holds hholds
    simp [hlayers]
  · intro hmem
    obtain ⟨upper, lower, hlayers⟩ := List.append_of_mem hmem
    obtain ⟨before, hholds, -⟩ := exists_holds_of_layers hlayers
    exact ⟨before, hholds⟩

theorem part_current_eq_none_iff {part : Style → Option Text}
    (hpart : part ∈ openParts) (changes : List StackChange) :
    part (empty.afterChanges changes).current = none ↔
      ∀ before style, Holds changes before style → part style = none := by
  rw [part_current hpart, List.findSome?_eq_none_iff]
  simp only [← holds_iff_mem_layers]
  exact ⟨fun h before style hholds => h style ⟨before, hholds⟩,
    fun h style ⟨before, hholds⟩ => h before style hholds⟩

theorem contains_current_iff (changes : List StackChange) (effect : Effect) :
    (empty.afterChanges changes).current.effects.contains effect = true ↔
      ∃ before style, Holds changes before style ∧
        style.effects.contains effect = true := by
  rw [contains_current]
  simp only [← holds_iff_mem_layers]
  constructor
  · rintro ⟨style, ⟨before, hholds⟩, heffect⟩
    exact ⟨before, style, hholds, heffect⟩
  · rintro ⟨before, style, hholds, heffect⟩
    exact ⟨style, ⟨before, hholds⟩, heffect⟩

theorem pop_of_undone {changes before : List StackChange} {style : Style}
    (hholds : Holds changes before style)
    (hundone : ¬ Holds (changes ++ [.pop]) before style) :
    (empty.afterChanges changes).top? = some style ∧
      (empty.afterChanges changes).pop = empty.afterChanges before := by
  obtain ⟨upper, hlayers⟩ := exists_layers_of_holds hholds
  have hupper : upper = [] := by
    rw [holds_concat_pop_iff, not_and, depth, depth, hlayers] at hundone
    have hlength := hundone hholds
    rw [List.length_append, List.length_cons] at hlength
    exact List.eq_nil_of_length_eq_zero (by omega)
  rw [hupper] at hlayers
  rw [top?, pop, hlayers]
  exact ⟨rfl, rfl⟩

theorem exists_undone {changes : List StackChange}
    (hdepth : (empty.afterChanges changes).depth ≠ 0) :
    ∃ before style, Holds changes before style ∧
      ¬ Holds (changes ++ [.pop]) before style := by
  obtain ⟨style, lower, hlayers⟩ :=
    List.exists_cons_of_length_pos (Nat.pos_of_ne_zero hdepth)
  obtain ⟨before, hholds, hlower⟩ :=
    @exists_holds_of_layers changes style [] lower hlayers
  refine ⟨before, style, hholds, ?_⟩
  rw [holds_concat_pop_iff, depth, depth, hlower, hlayers]
  simp

theorem pop_of_depth_eq_zero {stack : StyleStack} (hdepth : stack.depth = 0) :
    stack.top? = none ∧ stack.pop = stack := by
  obtain ⟨layers⟩ := stack
  obtain rfl := List.eq_nil_of_length_eq_zero hdepth
  exact ⟨rfl, rfl⟩

end StyleStack

/-! ## Laws of the merge -/

theorem EffectSet.union_self (set : EffectSet) : set.union set = set := by
  simp only [union, Bool.or_self]

theorem EffectSet.union_union_self (first second : EffectSet) :
    (first.union second).union first = second.union first := by
  ext effect
  simp only [union]
  cases first.contains effect <;> cases second.contains effect <;> rfl

namespace Style

theorem empty_overlay (style : Style) : empty.overlay style = style := by
  simp [overlay, empty, EffectSet.empty_union]

theorem overlay_self (style : Style) : style.overlay style = style := by
  simp only [overlay, Option.or_self, EffectSet.union_self]

theorem overlay_overlay_self (first second : Style) :
    (first.overlay second).overlay first = second.overlay first := by
  have hor (a b : Option Text) : a.or (b.or a) = a.or b := by
    cases a <;> cases b <;> rfl
  simp only [overlay, hor, EffectSet.union_union_self]

end Style

namespace StyleStack

open StackChange

theorem current_append (upper lower : List Style) :
    current ⟨upper ++ lower⟩ = (current ⟨lower⟩).overlay (current ⟨upper⟩) := by
  induction upper with
  | nil => exact (Style.overlay_empty _).symm
  | cons top below ih =>
      rw [List.cons_append, current_cons, current_cons, ih,
        Style.overlay_assoc]

/-- Behind any changes each color and the link are those of the latest style
that stays and sets them, and the effects are those of all styles that stay.  A
pop gives the style back whose push it undoes, with the stack from before that
push, and changes nothing if there is none.  The laws of the merge make the
style in force independent of where a stack is cut. -/
theorem current_afterChanges (changes : List StackChange) :
    let stack := empty.afterChanges changes
    (∀ part ∈ openParts,
        (∀ value, part stack.current = some value ↔
          ∃ before style, Holds changes before style ∧
            part style = some value ∧
            ∀ later other, Holds changes later other →
              before.length < later.length → part other = none) ∧
        (part stack.current = none ↔
          ∀ before style, Holds changes before style → part style = none)) ∧
      (∀ effect, stack.current.effects.contains effect = true ↔
        ∃ before style, Holds changes before style ∧
          style.effects.contains effect = true) ∧
      (∀ before style, Holds changes before style →
        ¬ Holds (changes ++ [.pop]) before style →
          stack.top? = some style ∧ stack.pop = empty.afterChanges before) ∧
      (stack.depth = 0 ∧ stack.top? = none ∧ stack.pop = stack ∨
        ∃ before style, Holds changes before style ∧
          ¬ Holds (changes ++ [.pop]) before style) ∧
      (∀ first second third : Style,
        (first.overlay second).overlay third =
          first.overlay (second.overlay third)) ∧
      (∀ style : Style,
        Style.empty.overlay style = style ∧ style.overlay .empty = style ∧
          style.overlay style = style) ∧
      (∀ first second : Style,
        (first.overlay second).overlay first = second.overlay first) ∧
      ∀ upper lower : List Style,
        current ⟨upper ++ lower⟩ =
          (current ⟨lower⟩).overlay (current ⟨upper⟩) := by
  intro stack
  refine
    ⟨?_, contains_current_iff changes, fun _ _ => pop_of_undone, ?_,
      Style.overlay_assoc, ?_, Style.overlay_overlay_self, current_append⟩
  · intro part hpart
    exact
      ⟨part_current_eq_some_iff hpart changes,
        part_current_eq_none_iff hpart changes⟩
  · by_cases hdepth : stack.depth = 0
    · exact .inl ⟨hdepth, pop_of_depth_eq_zero hdepth⟩
    · exact .inr (exists_undone hdepth)
  · intro style
    exact
      ⟨Style.empty_overlay style, Style.overlay_empty style,
        Style.overlay_self style⟩

/-- A pop of the empty stack and a clear come first.  The background is from the
style below, and the link is gone with the style that set it. -/
theorem current_afterChanges_cleared :
    let docs : Style := { link := some "docs".toList }
    let red : Style :=
      { background := some "red".toList, effects := .ofList [.bold] }
    let blue : Style := { foreground := some "blue".toList }
    let before : List StackChange := [.pop, .push docs, .clear]
    let later := before ++ [.push red, .push docs, .pop]
    let changes := later ++ [.push blue]
    let stack := empty.afterChanges changes
    (stack.current.background = some "red".toList ∧
        ∃ first style, Holds changes first style ∧
          style.background = some "red".toList ∧
          ∀ second other, Holds changes second other →
            first.length < second.length → other.background = none) ∧
      (stack.current.link = none ∧
        ∀ first style, Holds changes first style → style.link = none) ∧
      (Holds changes later blue ∧ ¬ Holds (changes ++ [.pop]) later blue) ∧
      stack.top? = some blue ∧ stack.pop = empty.afterChanges later := by
  intro docs red blue before later changes stack
  obtain ⟨hparts, -, hpop, -⟩ := current_afterChanges changes
  have hred : stack.current.background = some "red".toList := by decide
  have hnone : stack.current.link = none := by decide
  have hbackground := (hparts Style.background (by simp [openParts])).1
  have hlink := (hparts Style.link (by simp [openParts])).2
  have hholds : Holds changes later blue := by decide +kernel
  have hundone : ¬ Holds (changes ++ [.pop]) later blue := by decide +kernel
  exact
    ⟨⟨hred, (hbackground _).mp hred⟩, ⟨hnone, hlink.mp hnone⟩,
      ⟨hholds, hundone⟩, hpop later blue hholds hundone⟩

end StyleStack

end TerminalMarkup
