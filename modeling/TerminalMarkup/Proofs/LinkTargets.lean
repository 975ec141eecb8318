import TerminalMarkup.Proofs.LiteralText

/-!
# Where link targets come from

The targets in force in a marked-up text are those of the named styles or pieces
of the text itself.  Characters that neither of them holds are in no target.
-/

namespace TerminalMarkup

def Text.Avoids (text : Text) (marks : List Char) : Prop :=
  ∀ char ∈ text, char ∉ marks

def Style.LinkAvoids (style : Style) (marks : List Char) : Prop :=
  ∀ target, style.link = some target → Text.Avoids target marks

/-- No style that is found in a table links to a target with these
characters. -/
def StyleTable.LinksAvoid (table : StyleTable) (marks : List Char) : Prop :=
  ∀ name style, table.find? name = some style → style.LinkAvoids marks

instance (text : Text) (marks : List Char) : Decidable (text.Avoids marks) :=
  decidable_of_iff (text.all (fun char => !marks.contains char) = true)
    (by simp [Text.Avoids])

instance (style : Style) (marks : List Char) :
    Decidable (style.LinkAvoids marks) :=
  decidable_of_iff
    (style.link.all (fun target => decide (Text.Avoids target marks)) = true)
    (by simp [Style.LinkAvoids, Option.all_eq_true])

theorem StyleTable.linksAvoid_of_entries {table : StyleTable}
    {marks : List Char}
    (hentries : ∀ entry ∈ table.entries, entry.2.LinkAvoids marks) :
    table.LinksAvoid marks := by
  intro name style hfound
  obtain ⟨first, second, hsplit, -⟩ := List.lookup_eq_some_iff.mp hfound
  apply hentries (name.lowerCase, style)
  simp [hsplit]

theorem Text.Avoids.of_subset {text part : Text} {marks : List Char}
    (htext : text.Avoids marks) (hpart : part ⊆ text) : part.Avoids marks :=
  fun char hchar => htext char (hpart hchar)

theorem Text.Avoids.of_marks {text : Text} {marks others : List Char}
    (htext : text.Avoids marks) (hothers : others ⊆ marks) :
    text.Avoids others :=
  fun char hchar hmark => htext char hchar (hothers hmark)

theorem Text.Avoids.not_mem {text : Text} {marks : List Char}
    (htext : text.Avoids marks) {mark : Char} (hmark : mark ∈ marks) :
    mark ∉ text :=
  fun hmem => htext mark hmem hmark

theorem Style.LinkAvoids.of_marks {style : Style} {marks others : List Char}
    (hstyle : style.LinkAvoids marks) (hothers : others ⊆ marks) :
    style.LinkAvoids others :=
  fun target htarget => (hstyle target htarget).of_marks hothers

theorem StyleTable.LinksAvoid.of_marks {table : StyleTable}
    {marks others : List Char} (htable : table.LinksAvoid marks)
    (hothers : others ⊆ marks) : table.LinksAvoid others :=
  fun name style hfound => (htable name style hfound).of_marks hothers

/-! ## Pieces of a text -/

theorem Text.trimStart_subset (text : Text) : text.trimStart ⊆ text :=
  (List.dropWhile_sublist _).subset

theorem Text.trim_subset (text : Text) : text.trim ⊆ text := by
  intro char hchar
  have hend : char ∈ trimStart (trimStart text).reverse :=
    List.mem_reverse.mp hchar
  have hstart : char ∈ (trimStart text).reverse :=
    trimStart_subset _ hend
  exact trimStart_subset _ (List.mem_reverse.mp hstart)

theorem Text.cut?_after_subset {mark : Char} {text before after : Text}
    (hcut : text.cut? mark = some (before, after)) : after ⊆ text := by
  unfold cut? at hcut
  split at hcut
  · simp at hcut
  next first rest hdrop =>
    simp only [Option.some.injEq, Prod.mk.injEq] at hcut
    intro char hchar
    rw [← hcut.2] at hchar
    have hmem : char ∈ text.dropWhile (· != mark) := by
      rw [hdrop]
      exact List.mem_cons_of_mem _ hchar
    exact (List.dropWhile_sublist _).subset hmem

private theorem subset_intercalate {mark : Char} {piece : Text}
    {pieces : List Text} (hpiece : piece ∈ pieces) :
    piece ⊆ [mark].intercalate pieces := by
  induction pieces with
  | nil => simp at hpiece
  | cons first rest ih =>
      intro char hchar
      by_cases hrest : rest = []
      · subst rest
        simp only [List.mem_singleton] at hpiece
        simpa [hpiece] using hchar
      · rw [List.intercalate_cons_of_ne_nil hrest]
        rcases List.mem_cons.mp hpiece with rfl | hmem
        · simp [hchar]
        · simp [ih hmem hchar]

theorem Text.subset_of_mem_splitOn {mark : Char} {text piece : Text}
    (hpiece : piece ∈ text.splitOn mark) : piece ⊆ text := by
  have hsub := @subset_intercalate mark _ _ hpiece
  rwa [List.intercalate_splitOn] at hsub

theorem unescapeBody_sublist (body : Text) :
    (unescapeBody body).Sublist body := by
  induction body using unescapeBody.induct with
  | case1 => exact List.Sublist.refl _
  | case2 => exact List.Sublist.refl _
  | case3 char rest ih =>
      simp only [unescapeBody]
      exact (ih.cons_cons char).cons '\\'
  | case4 char rest hlast hescape ih =>
      rw [unescapeBody.eq_4 char rest hlast hescape]
      exact ih.cons_cons char

/-! ## Targets in an attribute text -/

theorem Attribute.value_subset {piece value : Text} {written : Attribute}
    (hread : Attribute.read piece = .ok written)
    (hvalue : written.value = some value) :
    value ⊆ piece := by
  unfold Attribute.read at hread
  split at hread
  · simp at hread
  next before after hcut =>
    split at hread
    · simp at hread
    next key hkey =>
      simp only [Except.ok.injEq] at hread
      subst hread
      simp only at hvalue
      split at hvalue
      · simp at hvalue
      · simp only [Option.some.injEq] at hvalue
        subst hvalue
        intro char hchar
        exact Text.cut?_after_subset hcut (Text.trim_subset _ hchar)

theorem mapM_cons_eq_ok_iff {α β ε : Type} {read : α → Except ε β} {item : α}
    {rest : List α} {results : List β} :
    (item :: rest).mapM read = .ok results ↔
      ∃ first others, read item = .ok first ∧ rest.mapM read = .ok others ∧
        results = first :: others := by
  rw [List.mapM_cons]
  cases read item with
  | error fault => simp [bind, Except.bind]
  | ok first =>
      cases rest.mapM read with
      | error fault => simp [bind, Except.bind]
      | ok others => simp [bind, Except.bind, pure, Except.pure, eq_comm]

theorem mem_of_mapM_eq_ok {α β ε : Type} {read : α → Except ε β}
    {list : List α} {results : List β} (hread : list.mapM read = .ok results) :
    ∀ result ∈ results, ∃ item ∈ list, read item = .ok result := by
  induction list generalizing results with
  | nil =>
      simp only [List.mapM_nil, pure, Except.pure, Except.ok.injEq] at hread
      simp [← hread]
  | cons item rest ih =>
      obtain ⟨first, others, hitem, hrest, rfl⟩ := mapM_cons_eq_ok_iff.mp hread
      intro result hresult
      rcases List.mem_cons.mp hresult with rfl | hmem
      · exact ⟨item, List.mem_cons_self, hitem⟩
      · obtain ⟨source, hsource, hok⟩ := ih hrest result hmem
        exact ⟨source, List.mem_cons_of_mem _ hsource, hok⟩

namespace Style

theorem link_assign {style : Style} {written : Attribute} {target : Text}
    (hlink : (style.assign written).link = some target) :
    style.link = some target ∨ written.value = some target := by
  unfold assign at hlink
  split at hlink
  · exact .inl hlink
  · exact .inl hlink
  · exact .inr hlink
  · split at hlink
    · exact .inl hlink
    · exact .inl hlink

theorem link_foldl_assign {style : Style} {written : List Attribute}
    {target : Text}
    (hlink : (written.foldl assign style).link = some target) :
    style.link = some target ∨
      ∃ given ∈ written, given.value = some target := by
  induction written generalizing style with
  | nil => exact .inl hlink
  | cons first rest ih =>
      rcases ih hlink with hassign | ⟨given, hmem, hvalue⟩
      · rcases link_assign hassign with hstyle | hvalue
        · exact .inl hstyle
        · exact .inr ⟨first, List.mem_cons_self, hvalue⟩
      · exact .inr ⟨given, List.mem_cons_of_mem _ hmem, hvalue⟩

/-- A target read from an attribute text is a piece of that text. -/
theorem link_subset_of_read {attributes target : Text} {style : Style}
    (hread : read attributes = .ok style)
    (hlink : style.link = some target) :
    target ⊆ attributes := by
  unfold read at hread
  cases hmap : (pieces attributes).mapM Attribute.read with
  | error fault => simp [hmap, bind, Except.bind] at hread
  | ok written =>
      simp only [hmap, bind, Except.bind, pure, Except.pure,
        Except.ok.injEq] at hread
      subst hread
      rcases link_foldl_assign hlink with hempty | ⟨given, hmem, hvalue⟩
      · simp [Style.empty] at hempty
      · obtain ⟨piece, hpiece, hok⟩ :=
          mem_of_mapM_eq_ok hmap given hmem
        obtain ⟨htrimmed, -⟩ := List.mem_filter.mp hpiece
        obtain ⟨raw, hraw, rfl⟩ := List.mem_map.mp htrimmed
        intro char hchar
        have hvalue := Attribute.value_subset hok hvalue hchar
        exact Text.subset_of_mem_splitOn hraw (Text.trim_subset _ hvalue)

end Style

/-! ## Targets in force -/

theorem StyleTable.linkAvoids_of_resolve? {table : StyleTable} {body : Text}
    {style : Style} {marks : List Char} (htable : table.LinksAvoid marks)
    (hbody : body.Avoids marks)
    (hstyle : table.resolve? body = some style) :
    style.LinkAvoids marks := by
  simp only [resolve?, Option.or_eq_some_iff] at hstyle
  rcases hstyle with hfound | ⟨-, hread⟩
  · exact htable _ _ hfound
  · have hok : Style.read (unescapeBody body) = .ok style := by
      cases hresult : Style.read (unescapeBody body) with
      | error fault => simp [hresult, Except.toOption] at hread
      | ok result =>
          simp only [hresult, Except.toOption, Option.some.injEq] at hread
          rw [hread]
    intro target htarget
    apply hbody.of_subset
    intro char hchar
    have hmeant := Style.link_subset_of_read hok htarget hchar
    exact (unescapeBody_sublist body).subset hmeant

theorem StyleStack.linkAvoids_current {stack : StyleStack}
    {marks : List Char}
    (hlayers : ∀ layer ∈ stack.layers, layer.LinkAvoids marks) :
    stack.current.LinkAvoids marks := by
  obtain ⟨layers⟩ := stack
  induction layers with
  | nil =>
      intro target htarget
      simp [current, Style.empty] at htarget
  | cons top below ih =>
      have hbelow := ih fun layer hlayer =>
        hlayers layer (List.mem_cons_of_mem _ hlayer)
      intro target htarget
      simp only [current, List.foldr_cons, Style.overlay,
        Option.or_eq_some_iff] at htarget
      rcases htarget with htop | ⟨-, hrest⟩
      · exact hlayers top List.mem_cons_self target htop
      · exact hbelow target hrest

theorem subset_of_mem_events {text : Text} {event : Event}
    (hevent : event ∈ events text) : event.raw ⊆ text := by
  intro char hchar
  exact (events_raw_sublist text).subset
    (List.mem_flatMap.mpr ⟨event, hevent, hchar⟩)

/-- What neither the named styles nor the text hold is in no target of a
span. -/
theorem Formatter.linkAvoids_of_mem_spansOf {formatter : Formatter}
    {markup : Text} {marks : List Char}
    (htable : formatter.styles.LinksAvoid marks)
    (hmarkup : markup.Avoids marks) {span : Span}
    (hspan : span ∈ formatter.spansOf markup) :
    span.style.LinkAvoids marks := by
  have henter :
      ∀ style,
        .enter style ∈
            Directive.join ((events markup).map (.ofEvent formatter.styles)) →
          style.LinkAvoids marks := by
    intro style hstyle
    obtain ⟨event, hevent, hdirective⟩ :=
      List.mem_map.mp (Directive.enter_mem_of_mem_join hstyle)
    cases event with
    | text content => simp [Directive.ofEvent] at hdirective
    | closing body => simp [Directive.ofEvent] at hdirective
    | opening body =>
        simp only [Directive.ofEvent] at hdirective
        split at hdirective
        next found hfound =>
          simp only [Directive.enter.injEq] at hdirective
          subst hdirective
          apply StyleTable.linkAvoids_of_resolve? htable ?_ hfound
          apply hmarkup.of_subset
          intro char hchar
          apply subset_of_mem_events hevent
          simp [Event.raw, hchar]
        · simp at hdirective
  obtain ⟨stack, hcurrent, hlayers⟩ :=
    Directive.style_of_mem_spans (by simp [StyleStack.empty]) henter hspan
  rw [hcurrent]
  exact StyleStack.linkAvoids_current hlayers

end TerminalMarkup
