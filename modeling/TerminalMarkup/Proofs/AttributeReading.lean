import TerminalMarkup.Proofs.WrittenAttributes

/-!
# What an attribute text says

A piece of an attribute text gives a value to a key or has a fault.  The
leftmost fault decides, and without one the last value for each key and all
effects.  Two texts joined by a semicolon are read like one style on top of the
other, unless an empty value takes an attribute away.
-/

namespace TerminalMarkup

/-- A piece gives a value to the key whose name stands before its first equals
sign. -/
inductive Gives : Text → AttributeKey → Text → Prop
  | attribute {before after : Text} {key : AttributeKey}
      (hfirst : '=' ∉ before) (hkey : before.trim.lowerCase = key.name) :
      Gives (before ++ '=' :: after) key after.trim

/-- A piece has a fault if it has no equals sign, or if it has another name than
that of a key before its first one. -/
inductive HasFault : Text → StyleError → Prop
  | missingValue {piece : Text} (hmark : '=' ∉ piece) :
      HasFault piece (.missingValue piece)
  | unknownKey {before after : Text} (hfirst : '=' ∉ before)
      (hkey : ∀ key : AttributeKey, before.trim.lowerCase ≠ key.name) :
      HasFault (before ++ '=' :: after) (.unknownKey before.trim)

/-- A token names an effect by its name, or the underscore by a second one. -/
def Effect.IsNamedBy (effect : Effect) (token : Text) : Prop :=
  token.trim.lowerCase = effect.name ∨
    (effect = .underscore ∧ token.trim.lowerCase = "underline".toList)

theorem exists_hasFault_or_gives (piece : Text) :
    (∃ fault, HasFault piece fault) ∨ ∃ key value, Gives piece key value := by
  by_cases hmark : '=' ∈ piece
  · obtain ⟨before, after, rfl, hfirst⟩ := List.eq_append_cons_of_mem hmark
    by_cases hkey :
        ∃ key : AttributeKey, (Text.trim before).lowerCase = key.name
    · obtain ⟨key, hkey⟩ := hkey
      exact .inr ⟨key, Text.trim after, .attribute hfirst hkey⟩
    · exact .inl ⟨_, .unknownKey hfirst (not_exists.mp hkey)⟩
  · exact .inl ⟨_, .missingValue hmark⟩

theorem Effect.ofToken?_eq_some_iff (effect : Effect) (token : Text) :
    ofToken? token = some effect ↔ effect.IsNamedBy token := by
  constructor
  · intro hnamed
    obtain ⟨before, after, hsplit, -⟩ := List.lookup_eq_some_iff.mp hnamed
    have hmem : (token.trim.lowerCase, effect) ∈ tokens := by
      simp [hsplit]
    rcases List.mem_cons.mp hmem with hsecond | hname
    · simp only [Prod.mk.injEq] at hsecond
      exact .inr ⟨hsecond.2, hsecond.1⟩
    · obtain ⟨other, -, hother⟩ := List.mem_map.mp hname
      simp only [Prod.mk.injEq] at hother
      rw [hother.2] at hother
      exact .inl hother.1.symm
  · rintro (hname | ⟨rfl, hname⟩)
    · rw [ofToken?, hname]
      cases effect <;> decide
    · rw [ofToken?, hname]
      decide

theorem AttributeKey.ofName?_eq_some_of_lowerCase {name : Text}
    {key : AttributeKey} (hname : name.lowerCase = key.name) :
    ofName? name = some key := by
  rw [ofName?, hname]
  cases key <;> decide

theorem AttributeKey.ofName?_eq_none_of_lowerCase {name : Text}
    (hname : ∀ key : AttributeKey, name.lowerCase ≠ key.name) :
    ofName? name = none := by
  rw [ofName?, List.find?_eq_none]
  intro key _ hkey
  exact hname key (by simpa using (of_decide_eq_true hkey).symm)

theorem Text.cut?_eq_none {mark : Char} {text : Text} (htext : mark ∉ text) :
    text.cut? mark = none := by
  have hpass : text.dropWhile (· != mark) = [] := by
    rw [List.dropWhile_eq_nil_iff]
    intro char hchar
    rw [bne_iff_ne]
    rintro rfl
    exact htext hchar
  rw [cut?, hpass]

theorem HasFault.read_eq {piece : Text} {fault : StyleError}
    (hfault : HasFault piece fault) : Attribute.read piece = .error fault := by
  cases hfault with
  | missingValue hmark => rw [Attribute.read, Text.cut?_eq_none hmark]
  | unknownKey hfirst hkey =>
      rw [Attribute.read, Text.cut?_append_cons hfirst]
      simp only [AttributeKey.ofName?_eq_none_of_lowerCase hkey]

theorem Gives.read_eq {piece value : Text} {key : AttributeKey}
    (hgives : Gives piece key value) :
    Attribute.read piece =
      .ok ⟨key, if value.isEmpty then none else some value⟩ := by
  obtain ⟨hfirst, hkey⟩ := hgives
  rw [Attribute.read, Text.cut?_append_cons hfirst]
  simp only [AttributeKey.ofName?_eq_some_of_lowerCase hkey]

theorem Gives.unique {piece value other : Text} {key otherKey : AttributeKey}
    (hgives : Gives piece key value) (hother : Gives piece otherKey other) :
    key = otherKey ∧ value = other := by
  have hread := hgives.read_eq
  rw [hother.read_eq] at hread
  simp only [Except.ok.injEq, Attribute.mk.injEq] at hread
  refine ⟨hread.1.symm, ?_⟩
  cases value <;> cases other <;> simp_all

theorem Attribute.read_eq_error_iff (piece : Text) (fault : StyleError) :
    read piece = .error fault ↔ HasFault piece fault := by
  constructor
  · intro hread
    rcases exists_hasFault_or_gives piece with ⟨other, hother⟩ | ⟨_, _, hgives⟩
    · rw [hother.read_eq, Except.error.injEq] at hread
      rwa [← hread]
    · rw [hgives.read_eq] at hread
      contradiction
  · exact HasFault.read_eq

theorem Attribute.gives_of_read {piece : Text} {written : Attribute}
    (hread : read piece = .ok written) :
    ∃ value, Gives piece written.key value ∧
      written.value = if value.isEmpty then none else some value := by
  rcases exists_hasFault_or_gives piece with ⟨_, hfault⟩ | ⟨key, value, hgives⟩
  · rw [hfault.read_eq] at hread
    contradiction
  · rw [hgives.read_eq, Except.ok.injEq] at hread
    subst hread
    exact ⟨value, hgives, rfl⟩

/-! ## The leftmost fault -/

/-- The leftmost of the pieces that have a fault has this one. -/
def LeftmostFault (pieces : List Text) (fault : StyleError) : Prop :=
  ∃ before piece after, pieces = before ++ piece :: after ∧
    (∀ earlier ∈ before, ∀ other, ¬ HasFault earlier other) ∧
    HasFault piece fault

theorem leftmostFault_cons (piece : Text) (rest : List Text)
    (fault : StyleError) :
    LeftmostFault (piece :: rest) fault ↔
      HasFault piece fault ∨
        ((∀ other, ¬ HasFault piece other) ∧ LeftmostFault rest fault) := by
  constructor
  · rintro ⟨before, first, after, hsplit, hbefore, hfirst⟩
    cases before with
    | nil =>
        obtain ⟨rfl, -⟩ := List.cons.inj hsplit
        exact .inl hfirst
    | cons earlier others =>
        obtain ⟨rfl, hrest⟩ := List.cons.inj hsplit
        refine .inr ⟨hbefore piece List.mem_cons_self, ?_⟩
        refine ⟨others, first, after, hrest, ?_, hfirst⟩
        intro other hother
        exact hbefore other (List.mem_cons_of_mem _ hother)
  · rintro (hfault | ⟨hpiece, before, first, after, rfl, hbefore, hfirst⟩)
    · exact ⟨[], piece, rest, rfl, by simp, hfault⟩
    · refine ⟨piece :: before, first, after, rfl, ?_, hfirst⟩
      intro earlier hearlier
      rcases List.mem_cons.mp hearlier with rfl | hmem
      · exact hpiece
      · exact hbefore earlier hmem

theorem exists_leftmostFault_iff (pieces : List Text) :
    (∃ fault, LeftmostFault pieces fault) ↔
      ∃ piece ∈ pieces, ∃ fault, HasFault piece fault := by
  induction pieces with
  | nil => simp [LeftmostFault]
  | cons piece rest ih =>
      simp only [leftmostFault_cons, exists_or, exists_and_left, ih,
        List.mem_cons, or_and_right, exists_eq_left]
      by_cases hpiece : ∃ fault, HasFault piece fault
      · simp [hpiece]
      · simp [not_exists.mp hpiece]

/-- Reading stops at the leftmost fault, and at nothing else. -/
theorem mapM_read_eq_error_iff (pieces : List Text) (fault : StyleError) :
    pieces.mapM Attribute.read = .error fault ↔ LeftmostFault pieces fault := by
  induction pieces with
  | nil => simp [LeftmostFault, pure, Except.pure]
  | cons piece rest ih =>
      rw [leftmostFault_cons, ← Attribute.read_eq_error_iff, ← ih,
        List.mapM_cons]
      simp only [← Attribute.read_eq_error_iff]
      cases hread : Attribute.read piece with
      | error found => simp [bind, Except.bind]
      | ok written =>
          cases rest.mapM Attribute.read <;>
            simp [bind, Except.bind, pure, Except.pure]

/-! ## What the pieces make -/

/-- The last of the pieces for a key gives it this value. -/
def LastGives (pieces : List Text) (key : AttributeKey) (value : Text) : Prop :=
  ∃ before piece after, pieces = before ++ piece :: after ∧
    Gives piece key value ∧ ∀ later ∈ after, ∀ other, ¬ Gives later key other

/-- The value that the last piece for a key leaves: none if it is empty, or if
there is no such piece. -/
def IsLastValue (pieces : List Text) (key : AttributeKey)
    (result : Option Text) : Prop :=
  ∀ value, result = some value ↔ value ≠ [] ∧ LastGives pieces key value

/-- The style that pieces without a fault make. -/
structure Style.IsMadeOf (style : Style) (pieces : List Text) : Prop where
  foreground : IsLastValue pieces .foreground style.foreground
  background : IsLastValue pieces .background style.background
  link : IsLastValue pieces .link style.link
  effects :
    ∀ effect, style.effects.contains effect = true ↔
      ∃ piece ∈ pieces, ∃ tokens, Gives piece .effects tokens ∧
        ∃ token ∈ tokens.splitOn ',', effect.IsNamedBy token

theorem lastGives_concat (pieces : List Text) (piece : Text)
    (key : AttributeKey) (value : Text) :
    LastGives (pieces ++ [piece]) key value ↔
      Gives piece key value ∨
        ((∀ other, ¬ Gives piece key other) ∧ LastGives pieces key value) := by
  constructor
  · rintro ⟨before, last, after, hsplit, hgives, hafter⟩
    rcases List.eq_nil_or_concat after with rfl | ⟨others, final, rfl⟩
    · obtain ⟨-, hlast⟩ := List.append_inj' hsplit rfl
      rw [List.singleton_inj] at hlast
      subst hlast
      exact .inl hgives
    · rw [List.concat_eq_append, ← List.cons_append, ← List.append_assoc] at hsplit
      obtain ⟨hpieces, hfinal⟩ := List.append_inj' hsplit rfl
      rw [List.singleton_inj] at hfinal
      subst hfinal
      rw [List.concat_eq_append] at hafter
      refine .inr ⟨hafter piece (by simp), before, last, others, hpieces, hgives, ?_⟩
      intro later hlater
      exact hafter later (List.mem_append_left _ hlater)
  · rintro (hgives | ⟨hpiece, before, last, after, rfl, hgives, hafter⟩)
    · exact ⟨pieces, piece, [], rfl, hgives, by simp⟩
    · refine ⟨before, last, after ++ [piece], by simp, hgives, ?_⟩
      intro later hlater
      rcases List.mem_append.mp hlater with hmem | hlast
      · exact hafter later hmem
      · rw [List.mem_singleton] at hlast
        rw [hlast]
        exact hpiece

theorem IsLastValue.concat_of_gives {piece given : Text} {key : AttributeKey}
    (hgives : Gives piece key given) (pieces : List Text) :
    IsLastValue (pieces ++ [piece]) key
      (if given.isEmpty then none else some given) := by
  intro value
  rw [lastGives_concat]
  constructor
  · intro hvalue
    split at hvalue
    · contradiction
    next hgiven =>
      obtain rfl : given = value := by simpa using hvalue
      exact ⟨by simpa using hgiven, .inl hgives⟩
  · rintro ⟨hvalue, hlast | ⟨hpiece, -⟩⟩
    · obtain ⟨-, rfl⟩ := hgives.unique hlast
      simp [hvalue]
    · exact absurd hgives (hpiece given)

theorem IsLastValue.concat_of_other {pieces : List Text} {piece given : Text}
    {key other : AttributeKey} {result : Option Text}
    (hresult : IsLastValue pieces key result) (hgives : Gives piece other given)
    (hother : other ≠ key) : IsLastValue (pieces ++ [piece]) key result := by
  have hpiece : ∀ value, ¬ Gives piece key value :=
    fun value hvalue => hother (hgives.unique hvalue).1
  intro value
  rw [hresult value, lastGives_concat]
  simp [hpiece]

theorem EffectSet.contains_ofTokens_iff (tokens : Text) (effect : Effect) :
    (ofTokens tokens).contains effect = true ↔
      ∃ token ∈ tokens.splitOn ',', effect.IsNamedBy token := by
  simp [ofTokens, ofList, Effect.ofToken?_eq_some_iff]

theorem EffectSet.union_empty (set : EffectSet) : set.union empty = set := by
  ext effect
  simp [union, empty]

namespace Style

theorem isMadeOf_nil : empty.IsMadeOf [] := by
  constructor <;> simp [empty, EffectSet.empty, IsLastValue, LastGives]

/-- The effects that a piece names join those of the pieces before it. -/
theorem IsMadeOf.effects_concat {style : Style} {pieces : List Text}
    (hstyle : style.IsMadeOf pieces) {piece tokens : Text}
    (hgives : Gives piece .effects tokens) (effect : Effect) :
    (style.effects.union (.ofTokens tokens)).contains effect = true ↔
      ∃ given ∈ pieces ++ [piece], ∃ tokens, Gives given .effects tokens ∧
        ∃ token ∈ tokens.splitOn ',', effect.IsNamedBy token := by
  simp only [EffectSet.union, Bool.or_eq_true, hstyle.effects,
    EffectSet.contains_ofTokens_iff, List.mem_append, List.mem_singleton,
    or_and_right, exists_or, exists_eq_left]
  apply or_congr_right
  constructor
  · exact fun hnamed => ⟨tokens, hgives, hnamed⟩
  · rintro ⟨other, hother, hnamed⟩
    rwa [(hgives.unique hother).2]

theorem IsMadeOf.effects_concat_of_other {style : Style} {pieces : List Text}
    (hstyle : style.IsMadeOf pieces) {piece value : Text} {key : AttributeKey}
    (hgives : Gives piece key value) (hkey : key ≠ .effects)
    (effect : Effect) :
    style.effects.contains effect = true ↔
      ∃ given ∈ pieces ++ [piece], ∃ tokens, Gives given .effects tokens ∧
        ∃ token ∈ tokens.splitOn ',', effect.IsNamedBy token := by
  have hpiece : ∀ tokens, ¬ Gives piece .effects tokens :=
    fun tokens htokens => hkey (hgives.unique htokens).1
  simp [hstyle.effects, or_and_right, exists_or, hpiece]

/-- One more piece: its key takes the value, or more effects are added, and the
rest of the style stays as the pieces before it left it. -/
theorem IsMadeOf.assign {style : Style} {pieces : List Text}
    (hstyle : style.IsMadeOf pieces) {piece : Text} {written : Attribute}
    (hread : Attribute.read piece = .ok written) :
    (style.assign written).IsMadeOf (pieces ++ [piece]) := by
  obtain ⟨key, result⟩ := written
  obtain ⟨value, hgives, rfl⟩ := Attribute.gives_of_read hread
  simp only at hgives
  have hlast := IsLastValue.concat_of_gives hgives pieces
  cases key with
  | foreground =>
      exact
        ⟨hlast, hstyle.background.concat_of_other hgives (by decide),
          hstyle.link.concat_of_other hgives (by decide),
          hstyle.effects_concat_of_other hgives (by decide)⟩
  | background =>
      exact
        ⟨hstyle.foreground.concat_of_other hgives (by decide), hlast,
          hstyle.link.concat_of_other hgives (by decide),
          hstyle.effects_concat_of_other hgives (by decide)⟩
  | link =>
      exact
        ⟨hstyle.foreground.concat_of_other hgives (by decide),
          hstyle.background.concat_of_other hgives (by decide), hlast,
          hstyle.effects_concat_of_other hgives (by decide)⟩
  | effects =>
      have hassign :
          style.assign
              ⟨.effects, if value.isEmpty then none else some value⟩ =
            { style with effects := style.effects.union (.ofTokens value) } := by
        cases value with
        | nil =>
            have htokens : EffectSet.ofTokens [] = .empty := by decide
            simp [Style.assign, htokens, EffectSet.union_empty]
        | cons char rest => rfl
      rw [hassign]
      exact
        ⟨hstyle.foreground.concat_of_other hgives (by decide),
          hstyle.background.concat_of_other hgives (by decide),
          hstyle.link.concat_of_other hgives (by decide),
          hstyle.effects_concat hgives⟩

theorem IsMadeOf.foldl_assign {style : Style} {before pieces : List Text}
    (hstyle : style.IsMadeOf before) {written : List Attribute}
    (hread : pieces.mapM Attribute.read = .ok written) :
    (written.foldl Style.assign style).IsMadeOf (before ++ pieces) := by
  induction pieces generalizing style before written with
  | nil =>
      simp only [List.mapM_nil, pure, Except.pure, Except.ok.injEq] at hread
      subst hread
      simpa using hstyle
  | cons piece rest ih =>
      obtain ⟨first, others, hfirst, hrest, rfl⟩ :=
        mapM_cons_eq_ok_iff.mp hread
      have hothers := ih (hstyle.assign hfirst) hrest
      rwa [List.append_assoc] at hothers

/-- Pieces make one style at most. -/
theorem IsMadeOf.eq {first second : Style} {pieces : List Text}
    (hfirst : first.IsMadeOf pieces) (hsecond : second.IsMadeOf pieces) :
    first = second := by
  have hvalue {key : AttributeKey} {result other : Option Text}
      (hresult : IsLastValue pieces key result)
      (hother : IsLastValue pieces key other) : result = other :=
    Option.ext fun value => (hresult value).trans (hother value).symm
  have heffects : first.effects = second.effects := by
    ext effect
    exact Bool.eq_iff_iff.mpr
      ((hfirst.effects effect).trans (hsecond.effects effect).symm)
  cases first
  cases second
  rw [Style.mk.injEq]
  exact
    ⟨hvalue hfirst.foreground hsecond.foreground,
      hvalue hfirst.background hsecond.background,
      hvalue hfirst.link hsecond.link, heffects⟩

theorem isMadeOf_of_read {attributes : Text} {style : Style}
    (hread : read attributes = .ok style) :
    style.IsMadeOf (pieces attributes) := by
  obtain ⟨written, hwritten, rfl⟩ := (read_eq_ok_iff _ _).mp hread
  exact isMadeOf_nil.foldl_assign hwritten

theorem read_eq_error_iff (attributes : Text) (fault : StyleError) :
    read attributes = .error fault ↔
      LeftmostFault (pieces attributes) fault := by
  rw [← mapM_read_eq_error_iff, read]
  cases (pieces attributes).mapM Attribute.read <;>
    simp [bind, Except.bind, pure, Except.pure]

/-- Reading fails just if some piece has a fault, and then with the leftmost
one.  Otherwise it gives the style that the pieces make. -/
theorem read_iff_pieces (attributes : Text) :
    ((∃ fault, read attributes = .error fault) ↔
        ∃ piece ∈ pieces attributes, ∃ fault, HasFault piece fault) ∧
      (∀ fault, read attributes = .error fault ↔
        LeftmostFault (pieces attributes) fault) ∧
      ∀ style, read attributes = .ok style ↔
        (∀ piece ∈ pieces attributes, ∀ fault, ¬ HasFault piece fault) ∧
          style.IsMadeOf (pieces attributes) := by
  have herror := read_eq_error_iff attributes
  have hfails :
      (∃ fault, read attributes = .error fault) ↔
        ∃ piece ∈ pieces attributes, ∃ fault, HasFault piece fault := by
    simp only [herror]
    exact exists_leftmostFault_iff _
  refine ⟨hfails, herror, ?_⟩
  intro style
  constructor
  · intro hread
    refine ⟨?_, isMadeOf_of_read hread⟩
    intro piece hpiece fault hfault
    obtain ⟨first, hfirst⟩ := hfails.mpr ⟨piece, hpiece, fault, hfault⟩
    rw [hread] at hfirst
    contradiction
  · rintro ⟨hfree, hmade⟩
    cases hread : read attributes with
    | error fault =>
        obtain ⟨piece, hpiece, found, hfound⟩ := hfails.mp ⟨fault, hread⟩
        exact absurd hfound (hfree piece hpiece found)
    | ok result => rw [(isMadeOf_of_read hread).eq hmade]

-- The valid pieces on both sides of a fault do not count.
example :
    read "fg=red; Glow = 1 = 2 ;bold;options=dim".toList =
      .error (.unknownKey "Glow".toList) := by
  decide +kernel

end Style

theorem EffectSet.union_assoc (first second third : EffectSet) :
    (first.union second).union third = first.union (second.union third) := by
  simp only [union, Bool.or_assoc]

namespace Style

theorem overlay_assoc (first second third : Style) :
    (first.overlay second).overlay third =
      first.overlay (second.overlay third) := by
  simp only [overlay, Option.or_assoc, EffectSet.union_assoc]

theorem overlay_empty (style : Style) : style.overlay empty = style := by
  simp [overlay, empty, EffectSet.union_empty]

end Style

/-! ## Pieces of a joined text -/

namespace Style

theorem pieces_append_cons (first second : Text) :
    pieces (first ++ ';' :: second) = pieces first ++ pieces second := by
  rw [pieces, List.splitOn_append_cons_self, List.map_append, List.filter_append]
  rfl

/-- No piece takes a color or the link away by an empty value. -/
def ClearsNothing (attributes : Text) : Prop :=
  ∀ piece ∈ pieces attributes, ∀ key, Gives piece key [] → key = .effects

theorem gives_nil_iff (piece : Text) (key : AttributeKey) :
    Gives piece key [] ↔ Attribute.read piece = .ok ⟨key, none⟩ := by
  constructor
  · exact Gives.read_eq
  · intro hread
    obtain ⟨value, hgives, hvalue⟩ := Attribute.gives_of_read hread
    cases value with
    | nil => exact hgives
    | cons char rest => simp at hvalue

theorem clearsNothing_iff (attributes : Text) :
    ClearsNothing attributes ↔
      ∀ piece ∈ pieces attributes, ∀ key ∈ AttributeKey.all,
        Attribute.read piece = .ok ⟨key, none⟩ → key = .effects := by
  have hall (key : AttributeKey) : key ∈ AttributeKey.all := by
    cases key <;> decide
  simp only [ClearsNothing, gives_nil_iff, hall, true_imp_iff]

instance (attributes : Text) : Decidable (ClearsNothing attributes) :=
  decidable_of_iff _ (clearsNothing_iff attributes).symm

theorem assign_overlay (base top : Style) {written : Attribute}
    (hwritten : written.value = none → written.key = .effects) :
    (base.overlay top).assign written = base.overlay (top.assign written) := by
  obtain ⟨key, value⟩ := written
  cases value with
  | none =>
      obtain rfl : key = .effects := hwritten rfl
      rfl
  | some text =>
      cases key with
      | foreground => rfl
      | background => rfl
      | link => rfl
      | effects => simp only [assign, overlay, EffectSet.union_assoc]

/-- What attributes make of the upper of two styles, they make of both. -/
theorem foldl_assign_overlay (base : Style) {top : Style}
    {written : List Attribute}
    (hwritten : ∀ given ∈ written, given.value = none → given.key = .effects) :
    written.foldl assign (base.overlay top) =
      base.overlay (written.foldl assign top) := by
  induction written generalizing top with
  | nil => rfl
  | cons first rest ih =>
      rw [List.foldl_cons, List.foldl_cons,
        assign_overlay base top (hwritten first List.mem_cons_self)]
      exact ih fun given hgiven =>
        hwritten given (List.mem_cons_of_mem _ hgiven)

theorem ClearsNothing.key_eq {attributes : Text}
    (hattributes : ClearsNothing attributes) {written : List Attribute}
    (hread : (pieces attributes).mapM Attribute.read = .ok written) :
    ∀ given ∈ written, given.value = none → given.key = .effects := by
  intro given hgiven hnone
  obtain ⟨piece, hpiece, hok⟩ := mem_of_mapM_eq_ok hread given hgiven
  obtain ⟨value, hgives, hvalue⟩ := Attribute.gives_of_read hok
  rw [hnone] at hvalue
  cases value with
  | nil => exact hattributes piece hpiece _ hgives
  | cons char rest => simp at hvalue

/-! ## Joined texts -/

theorem read_append_cons_eq_error_iff (first second : Text)
    (fault : StyleError) :
    read (first ++ ';' :: second) = .error fault ↔
      read first = .error fault ∨
        ((∃ base, read first = .ok base) ∧ read second = .error fault) := by
  unfold read
  rw [pieces_append_cons, List.mapM_append]
  cases (pieces first).mapM Attribute.read with
  | error found => simp [bind, Except.bind]
  | ok written =>
      cases (pieces second).mapM Attribute.read <;>
        simp [bind, Except.bind, pure, Except.pure]

theorem read_append_cons_of_ok {first second : Text} {base top : Style}
    (hfirst : read first = .ok base) (hsecond : read second = .ok top)
    (hclears : ClearsNothing second) :
    read (first ++ ';' :: second) = .ok (base.overlay top) := by
  obtain ⟨before, hbefore, rfl⟩ := (read_eq_ok_iff _ _).mp hfirst
  obtain ⟨after, hafter, rfl⟩ := (read_eq_ok_iff _ _).mp hsecond
  rw [read_eq_ok_iff]
  refine ⟨before ++ after, ?_, ?_⟩
  · rw [pieces_append_cons, List.mapM_append, hbefore, hafter]
    rfl
  · rw [List.foldl_append, ← foldl_assign_overlay _ (hclears.key_eq hafter),
      overlay_empty]

/-- A joined text fails with the fault of its first part, or else of its second.
If both are read, and the second takes nothing away, the joined text gives both
styles on top of each other, and on top of any styles it counts for both. -/
theorem read_append_semicolon (first second : Text) :
    (∀ fault, read (first ++ ';' :: second) = .error fault ↔
        read first = .error fault ∨
          ((∃ base, read first = .ok base) ∧ read second = .error fault)) ∧
      ∀ base top, read first = .ok base → read second = .ok top →
        ClearsNothing second →
          ∃ joined, read (first ++ ';' :: second) = .ok joined ∧
            joined = base.overlay top ∧
            ∀ stack : StyleStack,
              ((stack.push base).push top).current =
                (stack.push joined).current := by
  refine ⟨read_append_cons_eq_error_iff first second, ?_⟩
  intro base top hfirst hsecond hclears
  refine
    ⟨base.overlay top, read_append_cons_of_ok hfirst hsecond hclears, rfl, ?_⟩
  intro stack
  simp only [StyleStack.current_push, overlay_assoc]

/-- A color of the first text is replaced, its link is kept, and the effects of
both add up. -/
theorem read_append_semicolon_override :
    let first := "fg=red;href=docs;options=bold".toList
    let second := " FG = blue=2 ;; options=dim, BOLD, glow".toList
    let joined : Style :=
      { foreground := some "blue=2".toList
        link := some "docs".toList
        effects := .ofList [.bold, .dim] }
    read (first ++ ';' :: second) = .ok joined ∧
      ∃ base top, read first = .ok base ∧ read second = .ok top ∧
        ClearsNothing second ∧
        ∀ stack : StyleStack,
          ((stack.push base).push top).current =
            (stack.push joined).current := by
  intro first second joined
  have hnamed :
      EffectSet.empty.union (.ofTokens "dim, BOLD, glow".toList) =
        .ofList [.bold, .dim] :=
    (EffectSet.toList_inj _ _).mp (by decide +kernel)
  have hunion :
      (EffectSet.ofList [.bold]).union (.ofList [.bold, .dim]) =
        .ofList [.bold, .dim] :=
    (EffectSet.toList_inj _ _).mp (by decide)
  have hfirst :
      read first =
        .ok
          { foreground := some "red".toList
            link := some "docs".toList
            effects := .ofList [.bold] } := by
    decide +kernel
  have hsecond :
      read second =
        .ok
          { foreground := some "blue=2".toList
            effects := .ofList [.bold, .dim] } := by
    rw [← hnamed]
    decide +kernel
  have hclears : ClearsNothing second := by decide +kernel
  obtain ⟨result, hread, hresult, hcurrent⟩ :=
    (read_append_semicolon first second).2 _ _ hfirst hsecond hclears
  obtain rfl : result = joined := by
    rw [hresult, overlay, hunion]
    rfl
  exact ⟨hread, _, _, hfirst, hsecond, hclears, hcurrent⟩

-- An empty value undoes the first text, which no style on top of red can do.
example : read "fg=red;fg=".toList = .ok .empty := by decide +kernel

end Style

end TerminalMarkup
