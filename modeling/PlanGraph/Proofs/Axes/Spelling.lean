import PlanGraph.Proofs.Axes
import PlanGraph.Proofs.Items.Whole

set_option autoImplicit false

/-! # How axes are spelled

Any text gives some axes, and each of their names is a proper one or the axis "none"
(`Axes.proper_ofText`). A list of proper names in brackets is read back as it was written, and so is
a list of such lists: an apostrophe behind the first character of a name is plain text, so it cannot
hide the comma that ends the name (`Axes.ofText_written`, `Axes.ofText_written_groups`). -/

namespace PlanGraph

namespace Axes

/-! ## The names that are read -/

/-- A name that is neither empty nor blank at an end, or the axis "none". -/
def Proper (noneAxis name : Text) : Prop := name = noneAxis ∨ (name ≠ [] ∧ Text.Tight name)

theorem proper_of_mem_names (noneAxis : Text) {t name : Text} (h : name ∈ names t) :
    Proper noneAxis name := by
  rw [names, List.mem_filter, List.mem_map] at h
  obtain ⟨⟨item, -, rfl⟩, hne⟩ := h
  exact .inr ⟨by simpa using hne, Text.tight_trim _⟩

theorem proper_of_mem_orNone {noneAxis t name : Text} (h : name ∈ orNone noneAxis (names t)) :
    Proper noneAxis name := by
  rw [orNone] at h
  split at h
  · exact .inl (List.mem_singleton.1 h)
  · exact proper_of_mem_names noneAxis h

/-- Each group holds the names in some text, or "none" in their place. -/
theorem exists_of_group? {noneAxis item : Text} {group : List Text}
    (h : group? noneAxis item = some group) : ∃ t, group = orNone noneAxis (names t) := by
  rw [group?] at h
  split at h
  · exact ⟨_, (Option.some.inj h).symm⟩
  · split at h
    · cases h
    · exact ⟨_, (Option.some.inj h).symm⟩

theorem proper_absent (noneAxis : Text) :
    ∀ name ∈ (absent noneAxis).flatten, Proper noneAxis name :=
  fun _ hname => .inl (List.mem_singleton.1 hname)

theorem proper_ofList (noneAxis inner : Text) :
    ∀ name ∈ (ofList noneAxis inner).flatten, Proper noneAxis name := by
  simp only [ofList]
  split
  · split
    · next groups hgroups =>
        intro name hname
        obtain ⟨group, hgroup, hname⟩ := List.mem_flatten.1 hname
        obtain ⟨item, -, hitem⟩ := exists_of_mem_mapM hgroups hgroup
        obtain ⟨t, rfl⟩ := exists_of_group? hitem
        exact proper_of_mem_orNone hname
    · exact proper_absent noneAxis
  · exact fun name hname => proper_of_mem_orNone hname

theorem proper_ofText (noneAxis t : Text) :
    ∀ name ∈ (ofText noneAxis t).flatten, Proper noneAxis name := by
  simp only [ofText]
  split
  · split
    · exact proper_ofList _ _
    · exact proper_absent noneAxis
  · split
    · exact proper_absent noneAxis
    · next hne =>
        intro name hname
        obtain rfl := List.mem_singleton.1 hname
        exact .inr ⟨fun hnil => hne (List.isEmpty_iff.2 hnil), Text.tight_trim _⟩

/-! ## Lists that are read back -/

section

variable {listing : List Text} (h : ∀ name ∈ listing, Items.IsName name)
include h

theorem split_names : Items.split ',' (Items.listed listing) = listing :=
  Items.split_listed fun name hname =>
    ⟨(h name hname).ne_nil, (h name hname).tight, (h name hname).keptWhole⟩

theorem names_listed : names (Items.listed listing) = listing := by
  have hmap : listing.map (fun item => (Note.unquote item).trim) = listing := by
    refine (List.map_congr_left fun name hname => ?_).trans (List.map_id listing)
    rw [(h name hname).unquote, Text.trim_of_tight (h name hname).tight, id]
  rw [names, split_names h, hmap, List.filter_eq_self]
  intro name hname
  simpa using (h name hname).ne_nil

theorem orNone_names_listed (hne : listing ≠ []) (noneAxis : Text) :
    orNone noneAxis (names (Items.listed listing)) = listing := by
  rw [names_listed h, orNone, if_neg fun hempty => hne (List.isEmpty_iff.1 hempty)]

theorem strip?_written_names :
    Bracket.square.strip? (Items.written listing) = some (Items.listed listing) :=
  Items.strip?_written_of_nested fun name hname => (h name hname).nested

/-- No name opens a group. -/
theorem any_startsWith_names : (listing.any fun item => Text.startsWith item "[") = false := by
  rw [List.any_eq_false]
  intro name hname hstart
  obtain ⟨rest, hrest⟩ := List.isPrefixOf_iff_prefix.1 hstart
  refine (h name hname).not_mem_opening .square ?_
  rw [← hrest]
  exact List.mem_cons_self

theorem ofText_written (hne : listing ≠ []) (noneAxis : Text) :
    ofText noneAxis (Items.written listing) = flat listing := by
  rw [ofText, Text.trim_of_tight (Items.tight_written _), if_pos (Items.startsWith_written _),
    strip?_written_names h]
  simp only [ofList, split_names h, any_startsWith_names h, orNone_names_listed h hne]
  rfl

/-- A written group is an item that is kept whole, and is read as its names. -/
theorem group?_written (hne : listing ≠ []) (noneAxis : Text) :
    group? noneAxis (Items.written listing) = some listing := by
  rw [group?, strip?_written_names h]
  simp only [orNone_names_listed h hne]

theorem keptWhole_written_names : Items.KeptWhole (Items.written listing) :=
  Items.keptWhole_written (fun name hname => (h name hname).nested) fun name hname =>
    (h name hname).quiet

end

theorem ofText_written_groups {groups : List (List Text)} (hne : groups ≠ [])
    (h : ∀ group ∈ groups, group ≠ [] ∧ ∀ name ∈ group, Items.IsName name) (noneAxis : Text) :
    ofText noneAxis (Items.written (groups.map Items.written)) = nested groups := by
  have hnested : ∀ item ∈ groups.map Items.written, Bracket.Nested item := by
    intro item hitem
    obtain ⟨group, hgroup, rfl⟩ := List.mem_map.1 hitem
    have hgroup := Items.nested_listed fun name hname => ((h group hgroup).2 name hname).nested
    exact hgroup.enclosed .square
  have hsplit : Items.split ',' (Items.listed (groups.map Items.written)) =
      groups.map Items.written := by
    refine Items.split_listed fun item hitem => ?_
    obtain ⟨group, hgroup, rfl⟩ := List.mem_map.1 hitem
    exact ⟨List.cons_ne_nil _ _, Items.tight_written group,
      keptWhole_written_names (h group hgroup).2⟩
  have hany : ((groups.map Items.written).any fun item => Text.startsWith item "[") = true := by
    obtain ⟨group, hgroup⟩ := List.exists_mem_of_ne_nil groups hne
    exact List.any_eq_true.2
      ⟨_, List.mem_map_of_mem hgroup, Items.startsWith_written group⟩
  have hgroups : (groups.map Items.written).mapM (group? noneAxis) = some groups :=
    mapM_map_of_read fun group hgroup =>
      group?_written (h group hgroup).2 (h group hgroup).1 noneAxis
  rw [ofText, Text.trim_of_tight (Items.tight_written _), if_pos (Items.startsWith_written _),
    Items.strip?_written_of_nested hnested]
  simp only [ofList, hsplit, hany, hgroups, if_true]

/-- The axes in a note. Whatever its text is, they are no empty list, have no empty group, and each
    name is proper or says "none"; and a written list of names, or of lists of names, is read as
    itself. -/
theorem ofText_filled_proper_readBack (noneAxis : Text) :
    (∀ t, (ofText noneAxis t).Filled ∧ ∀ name ∈ (ofText noneAxis t).flatten, Proper noneAxis name) ∧
    (∀ listing : List Text, listing ≠ [] → (∀ name ∈ listing, Items.IsName name) →
      ofText noneAxis (Items.written listing) = flat listing) ∧
    (∀ groups : List (List Text), groups ≠ [] →
      (∀ group ∈ groups, group ≠ [] ∧ ∀ name ∈ group, Items.IsName name) →
      ofText noneAxis (Items.written (groups.map Items.written)) = nested groups) :=
  ⟨fun t => ⟨filled_ofText noneAxis t, proper_ofText noneAxis t⟩,
    fun _ hne h => ofText_written h hne noneAxis,
    fun _ hne h => ofText_written_groups hne h noneAxis⟩

/-- Names with apostrophes and quotes, each behind the first character. -/
def apostropheGroups : List (List Text) := [["it's", "x'"], ["don't \"say\""]]

theorem isName_apostrophe {name : Text} (h : name ∈ apostropheGroups.flatten) :
    Items.IsName name := by
  have hplain : (apostropheGroups.flatten.all fun name => name.all fun x =>
      (Bracket.ofOpening? x).isNone && (Bracket.ofClosing? x).isNone && x != ',') = true := by
    decide
  have hchars : ∀ x ∈ name,
      (Bracket.ofOpening? x = none ∧ Bracket.ofClosing? x = none) ∧ x ≠ ',' := by
    simpa using List.all_eq_true.1 hplain name h
  have hends : name ≠ [] ∧ Text.Tight name ∧ name.head? ≠ some '"' ∧ name.head? ≠ some '\'' := by
    simp only [apostropheGroups, List.flatten_cons, List.flatten_nil, List.cons_append,
      List.nil_append, List.mem_cons, List.not_mem_nil, or_false] at h
    rcases h with rfl | rfl | rfl <;> decide
  refine ⟨hends.1, hends.2.1, fun x hx => (hchars x hx).1, fun hcomma => (hchars ',' hcomma).2 rfl,
    fun x hx => ⟨?_, ?_⟩⟩
  · exact fun hquote => hends.2.2.1 (hquote ▸ hx)
  · exact fun hquote => hends.2.2.2 (hquote ▸ hx)

theorem ofText_apostropheGroups :
    Items.written apostropheGroups.flatten = "[it's, x', don't \"say\"]".toList ∧
    ofText "none" (Items.written apostropheGroups.flatten) = flat apostropheGroups.flatten ∧
    Items.written (apostropheGroups.map Items.written) =
      "[[it's, x'], [don't \"say\"]]".toList ∧
    ofText "none" (Items.written (apostropheGroups.map Items.written)) =
      nested apostropheGroups := by
  refine ⟨by decide, ?_, by decide, ?_⟩
  · exact (ofText_filled_proper_readBack _).2.1 _ (by decide) fun _ => isName_apostrophe
  · refine (ofText_filled_proper_readBack _).2.2 _ (by decide) fun group hgroup => ⟨?_, ?_⟩
    · exact (show ∀ group ∈ apostropheGroups, group ≠ [] by decide) group hgroup
    · exact fun name hname => isName_apostrophe (List.mem_flatten_of_mem hgroup hname)

end Axes

end PlanGraph
