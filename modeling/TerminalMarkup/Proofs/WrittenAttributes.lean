import Mathlib.Data.List.DropRight
import Mathlib.Tactic.TFAE
import TerminalMarkup.Proofs.LinkTargets

/-!
# Styles read back from their attributes

A value that is read is not empty, has no blank at either end and holds no
semicolon.  Writing undoes reading, and reading undoes writing on just the
styles with such values.
-/

namespace TerminalMarkup

namespace Text

theorem trimStart_eq_self_iff (text : Text) :
    text.trimStart = text ↔
      ∀ char, text.head? = some char → isBlank char = false := by
  rw [trimStart, List.dropWhile_eq_self_iff]
  cases text with
  | nil => simp
  | cons char rest => simp

theorem trimEnd_eq_self_iff (text : Text) :
    text.trimEnd = text ↔
      ∀ char, text.getLast? = some char → isBlank char = false := by
  rw [trimEnd, List.reverse_eq_iff, trimStart_eq_self_iff, List.head?_reverse]

theorem trim_eq_self_iff (text : Text) :
    text.trim = text ↔
      (∀ char, text.head? = some char → isBlank char = false) ∧
        ∀ char, text.getLast? = some char → isBlank char = false := by
  rw [← trimStart_eq_self_iff, ← trimEnd_eq_self_iff]
  constructor
  · intro htrim
    have hstart : text.trimStart <:+ text := List.dropWhile_suffix _
    have hend : text.trimStart.trimEnd <+: text.trimStart :=
      List.rdropWhile_prefix _ _
    have hlength : text.trimStart = text := by
      apply hstart.eq_of_length_le
      conv => lhs; rw [← htrim]
      exact hend.length_le
    refine ⟨hlength, ?_⟩
    rwa [trim, hlength] at htrim
  · rintro ⟨hstart, hend⟩
    rw [trim, hstart, hend]

theorem trim_trim (text : Text) : text.trim.trim = text.trim := by
  have hprefix : text.trim <+: text.trimStart := List.rdropWhile_prefix _ _
  have hstart : text.trimStart.trimStart = text.trimStart :=
    List.dropWhile_idempotent _ _
  have hend : text.trim.trimEnd = text.trim :=
    List.rdropWhile_idempotent _ _
  rw [trimStart_eq_self_iff] at hstart
  rw [trimEnd_eq_self_iff] at hend
  rw [trim_eq_self_iff]
  refine ⟨?_, hend⟩
  intro char hchar
  apply hstart
  obtain ⟨tail, htail⟩ := hprefix
  rw [← htail, List.head?_append, hchar]
  rfl

theorem not_mem_of_mem_splitOn {mark : Char} {text piece : Text}
    (hpiece : piece ∈ text.splitOn mark) : mark ∉ piece := by
  induction text generalizing piece with
  | nil =>
      have hnil : piece = [] := by simpa using hpiece
      simp [hnil]
  | cons char rest ih =>
      rw [List.splitOn_cons_eq_if_modifyHead] at hpiece
      split at hpiece
      · rcases List.mem_cons.mp hpiece with rfl | hmem
        · exact List.not_mem_nil
        · exact ih hmem
      next hchar =>
        cases hrest : rest.splitOn mark with
        | nil => simp [hrest] at hpiece
        | cons first others =>
            rw [hrest] at hpiece ih
            rcases List.mem_cons.mp hpiece with rfl | hmem
            · have hfirst := ih List.mem_cons_self
              have hne : char ≠ mark := by simpa using hchar
              simp [hfirst, hne.symm]
            · exact ih (List.mem_cons_of_mem _ hmem)

/-- What an attribute text can hold between two semicolons without a loss. -/
structure IsValue (text : Text) : Prop where
  ne_nil : text ≠ []
  trim_eq : text.trim = text
  semicolon_not_mem : ';' ∉ text

/-- Values with a mark between them are found as one value. -/
theorem IsValue.append_cons {first second : Text} (hfirst : first.IsValue)
    (hsecond : second.IsValue) {mark : Char} (hmark : mark ≠ ';') :
    IsValue (first ++ mark :: second) := by
  have hstart := ((trim_eq_self_iff first).mp hfirst.trim_eq).1
  have hend := ((trim_eq_self_iff second).mp hsecond.trim_eq).2
  refine ⟨by simp, ?_, ?_⟩
  · rw [trim_eq_self_iff]
    constructor
    · intro char hchar
      apply hstart
      obtain ⟨head, tail, rfl⟩ := List.exists_cons_of_ne_nil hfirst.ne_nil
      simpa using hchar
    · intro char hchar
      apply hend
      obtain ⟨head, tail, rfl⟩ := List.exists_cons_of_ne_nil hsecond.ne_nil
      simpa using hchar
  · simp [hfirst.semicolon_not_mem, hsecond.semicolon_not_mem, hmark.symm]

theorem isValue_intercalate {mark : Char} (hmark : mark ≠ ';')
    {values : List Text} (hne : values ≠ [])
    (hvalues : ∀ value ∈ values, value.IsValue) :
    IsValue ([mark].intercalate values) := by
  induction values with
  | nil => contradiction
  | cons first rest ih =>
      have hfirst : first.IsValue := hvalues first List.mem_cons_self
      by_cases hrest : rest = []
      · subst rest
        simpa using hfirst
      · have hothers := ih hrest fun value hvalue =>
          hvalues value (List.mem_cons_of_mem _ hvalue)
        rw [List.intercalate_cons_of_ne_nil hrest, List.append_assoc]
        exact hfirst.append_cons hothers hmark

end Text

/-! ## Values that are read -/

/-- Every text that the style holds is a value. -/
structure Style.IsWritable (style : Style) : Prop where
  foreground : ∀ value, style.foreground = some value → value.IsValue
  background : ∀ value, style.background = some value → value.IsValue
  link : ∀ value, style.link = some value → value.IsValue

theorem Attribute.isValue_of_read {piece value : Text} {written : Attribute}
    (hpiece : ';' ∉ piece) (hread : read piece = .ok written)
    (hvalue : written.value = some value) : value.IsValue := by
  have hsubset := value_subset hread hvalue
  unfold read at hread
  split at hread
  · simp at hread
  next before after hcut =>
    split at hread
    · simp at hread
    next key hkey =>
      simp only [Except.ok.injEq] at hread
      subst hread
      simp only at hvalue
      split at hvalue
      · simp at hvalue
      next hne =>
        simp only [Option.some.injEq] at hvalue
        subst hvalue
        exact
          ⟨by simpa using hne, Text.trim_trim after,
            fun hmem => hpiece (hsubset hmem)⟩

namespace Style

theorem read_eq_ok_iff (attributes : Text) (style : Style) :
    read attributes = .ok style ↔
      ∃ written,
        (pieces attributes).mapM Attribute.read = .ok written ∧
          written.foldl assign .empty = style := by
  unfold read
  cases (pieces attributes).mapM Attribute.read with
  | error fault => simp [bind, Except.bind]
  | ok written => simp [bind, Except.bind, pure, Except.pure]

theorem IsWritable.assign {style : Style} (hstyle : style.IsWritable)
    {written : Attribute}
    (hwritten : ∀ value, written.value = some value → value.IsValue) :
    (style.assign written).IsWritable := by
  unfold Style.assign
  split
  · exact ⟨hwritten, hstyle.background, hstyle.link⟩
  · exact ⟨hstyle.foreground, hwritten, hstyle.link⟩
  · exact ⟨hstyle.foreground, hstyle.background, hwritten⟩
  · split
    · exact ⟨hstyle.foreground, hstyle.background, hstyle.link⟩
    · exact hstyle

theorem IsWritable.foldl_assign {style : Style} (hstyle : style.IsWritable)
    {written : List Attribute}
    (hwritten :
      ∀ given ∈ written, ∀ value, given.value = some value → value.IsValue) :
    (written.foldl Style.assign style).IsWritable := by
  induction written generalizing style with
  | nil => exact hstyle
  | cons first rest ih =>
      apply ih (hstyle.assign (hwritten first List.mem_cons_self))
      exact fun given hgiven => hwritten given (List.mem_cons_of_mem _ hgiven)

theorem isWritable_empty : empty.IsWritable := by
  constructor <;> simp [empty]

theorem isWritable_of_read {attributes : Text} {style : Style}
    (hread : read attributes = .ok style) : style.IsWritable := by
  obtain ⟨written, hwritten, rfl⟩ := (read_eq_ok_iff _ _).mp hread
  apply isWritable_empty.foldl_assign
  intro given hgiven value hvalue
  obtain ⟨piece, hpiece, hok⟩ := mem_of_mapM_eq_ok hwritten given hgiven
  obtain ⟨raw, hraw, rfl⟩ := List.mem_map.mp (List.mem_filter.mp hpiece).1
  have hsemicolon : ';' ∉ raw.trim := fun hmem =>
    Text.not_mem_of_mem_splitOn hraw (Text.trim_subset raw hmem)
  exact Attribute.isValue_of_read hsemicolon hok hvalue

end Style

namespace Effect

theorem isValue_name (effect : Effect) : effect.name.IsValue := by
  cases effect <;> exact ⟨by decide, by decide, by decide⟩

theorem comma_not_mem_name (effect : Effect) : ',' ∉ effect.name := by
  cases effect <;> decide

theorem ofToken?_name (effect : Effect) :
    ofToken? effect.name = some effect := by
  cases effect <;> decide

end Effect

namespace EffectSet

theorem ofList_toList (set : EffectSet) : ofList set.toList = set := by
  ext effect
  rw [Bool.eq_iff_iff, ← mem_toList set]
  exact List.contains_iff_mem

theorem empty_union (set : EffectSet) : empty.union set = set := by
  ext effect
  rfl

theorem eq_empty_of_isEmpty {set : EffectSet} (hset : set.isEmpty = true) :
    set = empty := by
  rw [← toList_inj]
  rw [isEmpty, List.isEmpty_iff] at hset
  rw [hset]
  rfl

/-- The names of the members, with commas between them, are read as the set. -/
theorem ofTokens_intercalate_name {set : EffectSet}
    (hset : set.isEmpty = false) :
    ofTokens ([','].intercalate (set.toList.map Effect.name)) = set := by
  have hne : set.toList.map Effect.name ≠ [] := by
    simpa [isEmpty] using hset
  have hcomma : ∀ name ∈ set.toList.map Effect.name, ',' ∉ name := by
    intro name hname
    obtain ⟨effect, -, rfl⟩ := List.mem_map.mp hname
    exact effect.comma_not_mem_name
  have htokens : Effect.ofToken? ∘ Effect.name = some := by
    funext effect
    exact effect.ofToken?_name
  rw [ofTokens, List.splitOn_intercalate ',' hcomma hne, List.filterMap_map,
    htokens, List.filterMap_some, ofList_toList]

end EffectSet

/-! ## Attributes that are written -/

namespace AttributeKey

theorem isValue_name (key : AttributeKey) : key.name.IsValue := by
  cases key <;> exact ⟨by decide, by decide, by decide⟩

theorem equals_not_mem_name (key : AttributeKey) : '=' ∉ key.name := by
  cases key <;> decide

theorem ofName?_name (key : AttributeKey) : ofName? key.name = some key := by
  cases key <;> decide

end AttributeKey

theorem Text.cut?_append_cons {mark : Char} {before : Text}
    (hbefore : mark ∉ before) (after : Text) :
    cut? mark (before ++ mark :: after) = some (before, after) := by
  have hpass : ∀ char ∈ before, (char != mark) = true := by
    intro char hchar
    rw [bne_iff_ne]
    rintro rfl
    exact hbefore hchar
  simp [cut?, List.dropWhile_append_of_pos hpass,
    List.takeWhile_append_of_pos hpass]

theorem Attribute.read_append_cons (key : AttributeKey) {value : Text}
    (hvalue : value.IsValue) :
    read (key.name ++ '=' :: value) = .ok ⟨key, some value⟩ := by
  rw [read, Text.cut?_append_cons key.equals_not_mem_name]
  simp only [key.isValue_name.trim_eq, key.ofName?_name, hvalue.trim_eq]
  simp [hvalue.ne_nil]

theorem mapM_map_eq_ok {α β ε : Type} {read : α → Except ε β} {write : β → α}
    {list : List β} (hread : ∀ item ∈ list, read (write item) = .ok item) :
    (list.map write).mapM read = .ok list := by
  induction list with
  | nil => rfl
  | cons first rest ih =>
      have hfirst := hread first List.mem_cons_self
      have hrest := ih fun item hitem =>
        hread item (List.mem_cons_of_mem _ hitem)
      exact mapM_cons_eq_ok_iff.mpr ⟨first, rest, hfirst, hrest, rfl⟩

namespace Style

/-- The attributes that a style gives, in the order in which they are
written. -/
def attributes (style : Style) : List Attribute :=
  AttributeKey.all.filterMap fun key =>
    (style.value? key).map fun value => ⟨key, some value⟩

theorem writtenAttributes_eq_map (style : Style) :
    style.writtenAttributes =
      style.attributes.map fun written =>
        written.key.name ++ '=' :: written.value.getD [] := by
  rw [writtenAttributes, attributes, List.map_filterMap]
  congr
  funext key
  rw [Option.map_map]
  rfl

theorem IsWritable.isValue_of_value? {style : Style}
    (hstyle : style.IsWritable) {key : AttributeKey} {value : Text}
    (hvalue : style.value? key = some value) : value.IsValue := by
  cases key with
  | foreground => exact hstyle.foreground value hvalue
  | background => exact hstyle.background value hvalue
  | link => exact hstyle.link value hvalue
  | effects =>
      simp only [value?] at hvalue
      split at hvalue
      · contradiction
      next hset =>
        rw [Option.some.injEq] at hvalue
        subst hvalue
        apply Text.isValue_intercalate (by decide)
        · simpa [EffectSet.isEmpty] using hset
        · intro name hname
          obtain ⟨effect, -, rfl⟩ := List.mem_map.mp hname
          exact effect.isValue_name

theorem IsWritable.exists_of_mem_attributes {style : Style}
    (hstyle : style.IsWritable) {written : Attribute}
    (hwritten : written ∈ style.attributes) :
    ∃ value, written.value = some value ∧ value.IsValue := by
  obtain ⟨key, -, hkey⟩ := List.mem_filterMap.mp hwritten
  obtain ⟨value, hvalue, rfl⟩ := Option.map_eq_some_iff.mp hkey
  exact ⟨value, rfl, hstyle.isValue_of_value? hvalue⟩

theorem IsWritable.isValue_of_mem {style : Style} (hstyle : style.IsWritable)
    {piece : Text} (hpiece : piece ∈ style.writtenAttributes) :
    piece.IsValue := by
  rw [writtenAttributes_eq_map] at hpiece
  obtain ⟨written, hwritten, rfl⟩ := List.mem_map.mp hpiece
  obtain ⟨value, hvalue, hvalid⟩ := hstyle.exists_of_mem_attributes hwritten
  rw [hvalue]
  exact written.key.isValue_name.append_cons hvalid (by decide)

/-- Pieces between semicolons are found again. -/
theorem pieces_intercalate {values : List Text}
    (hvalues : ∀ value ∈ values, value.IsValue) :
    pieces ([';'].intercalate values) = values := by
  by_cases hne : values = []
  · subst values
    rfl
  · have hsemicolon : ∀ value ∈ values, ';' ∉ value :=
      fun value hvalue => (hvalues value hvalue).semicolon_not_mem
    have htrim : values.map Text.trim = values := by
      conv => rhs; rw [← List.map_id values]
      exact
        List.map_congr_left fun value hvalue => (hvalues value hvalue).trim_eq
    rw [pieces, List.splitOn_intercalate ';' hsemicolon hne, htrim,
      List.filter_eq_self]
    intro value hvalue
    simpa using (hvalues value hvalue).ne_nil

/-- The attributes of a style, taken in order, make up the style. -/
theorem foldl_assign_attributes (style : Style) :
    style.attributes.foldl assign .empty = style := by
  obtain ⟨foreground, background, link, effects⟩ := style
  cases hset : effects.isEmpty with
  | true =>
      obtain rfl := EffectSet.eq_empty_of_isEmpty hset
      cases foreground <;> cases background <;> cases link <;>
        simp [attributes, AttributeKey.all, value?, hset, assign, empty]
  | false =>
      have heffects := EffectSet.ofTokens_intercalate_name hset
      cases foreground <;> cases background <;> cases link <;>
        simp [attributes, AttributeKey.all, value?, hset, assign, empty,
          heffects, EffectSet.empty_union]

theorem read_write {style : Style} (hstyle : style.IsWritable) :
    read style.write = .ok style := by
  rw [read_eq_ok_iff]
  refine ⟨style.attributes, ?_, style.foldl_assign_attributes⟩
  rw [write, pieces_intercalate fun piece hpiece => hstyle.isValue_of_mem hpiece,
    writtenAttributes_eq_map]
  apply mapM_map_eq_ok
  intro written hwritten
  obtain ⟨value, hvalue, hvalid⟩ := hstyle.exists_of_mem_attributes hwritten
  obtain ⟨key, given⟩ := written
  subst hvalue
  exact Attribute.read_append_cons key hvalid

/-- A style is read back from what it is written as just if some text is read as
the style, which is so just if its colors and its link are values. -/
theorem read_write_tfae (style : Style) :
    [read style.write = .ok style, ∃ attributes, read attributes = .ok style,
      style.IsWritable].TFAE := by
  tfae_have 1 → 2 := fun hread => ⟨style.write, hread⟩
  tfae_have 2 → 3 := fun ⟨_, hread⟩ => isWritable_of_read hread
  tfae_have 3 → 1 := read_write
  tfae_finish

end Style

end TerminalMarkup
