import PlanGraph.Proofs.Items

set_option autoImplicit false

/-! # Items that are kept whole

A written list is read back if each of its items is kept whole wherever it starts (`split_listed`).
What may stand in such an item depends on its first character. A string in double quotes may hold
anything but its own quote (`keptWhole_quoted`). In an item that no quote opens, quotes are plain
text and brackets have to nest: so it is with names (`IsName.keptWhole`), with items that have no
quotes and have their commas in brackets (`IsSealed.keptWhole`), and with lists of names in brackets
(`keptWhole_written`). The brackets around the whole list are found by counting one pair, in quotes
or not (`strip?_written`). -/

namespace PlanGraph

/-! ## Reading all members -/

/-- Reading all members of a list succeeds if each is read. -/
theorem map_eq_of_mapM {α β : Type} {f : α → Option β} {as : List α} {bs : List β}
    (h : as.mapM f = some bs) : as.map f = bs.map some := by
  induction as generalizing bs with
  | nil =>
      cases h
      rfl
  | cons a as ih =>
      simp only [List.mapM_cons, Option.bind_eq_bind, Option.pure_def, Option.bind_eq_some_iff,
        Option.some.injEq] at h
      obtain ⟨b, hb, rest, hrest, rfl⟩ := h
      rw [List.map_cons, List.map_cons, hb, ih hrest]

theorem exists_of_mem_mapM {α β : Type} {f : α → Option β} {as : List α} {bs : List β}
    (h : as.mapM f = some bs) {b : β} (hb : b ∈ bs) : ∃ a ∈ as, f a = some b := by
  have hmem : some b ∈ as.map f := by
    rw [map_eq_of_mapM h]
    exact List.mem_map_of_mem hb
  exact List.mem_map.1 hmem

/-- Written members are all read if each is. -/
theorem mapM_map_eq_some {α β γ : Type} {read : β → Option γ} {write : α → β} {value : α → γ}
    {as : List α} (h : ∀ a ∈ as, read (write a) = some (value a)) :
    (as.map write).mapM read = some (as.map value) := by
  induction as with
  | nil => rfl
  | cons a as ih =>
      have hrest := ih fun b hb => h b (List.mem_cons_of_mem _ hb)
      rw [List.map_cons, List.mapM_cons, h a List.mem_cons_self, hrest]
      rfl

theorem mapM_map_of_read {α β : Type} {read : β → Option α} {write : α → β} {as : List α}
    (h : ∀ a ∈ as, read (write a) = some a) : (as.map write).mapM read = some as := by
  have hall : (as.map write).mapM read = some (as.map id) := mapM_map_eq_some h
  rwa [List.map_id] at hall

namespace Items

/-! ## Written lists -/

/-- An item that is one piece, behind any gap. -/
def KeptWhole (item : Text) : Prop :=
  ∀ gap rest, Text.AllBlank gap →
    pieces ',' 0 none gap (item ++ rest) = pieces ',' 0 none (item.reverse ++ gap) rest

/-- Items that are kept whole are the pieces of their list, each behind its gap. -/
theorem pieces_listed {item : Text} {items : List Text} (h : ∀ i ∈ item :: items, KeptWhole i)
    {gap : Text} (hgap : Text.AllBlank gap) :
    pieces ',' 0 none gap (listed (item :: items)) =
      (gap.reverse ++ item) :: items.map (' ' :: ·) := by
  induction items generalizing item gap with
  | nil =>
      have hitem := h item List.mem_cons_self gap [] hgap
      rw [List.append_nil] at hitem
      rw [listed, hitem]
      simp [pieces]
  | cons next items ih =>
      have hspace : pieces ',' 0 none [] (' ' :: listed (next :: items)) =
          pieces ',' 0 none [' '] (listed (next :: items)) := by
        rw [pieces_cons (by simp), if_neg (by decide)]
        rfl
      rw [listed_cons_cons, h item List.mem_cons_self gap _ hgap, pieces_cons (by simp),
        if_pos ⟨rfl, rfl⟩, hspace,
        ih (fun i hi => h i (List.mem_cons_of_mem _ hi)) Text.AllBlank.space]
      simp

/-- A written list is read as its items if they are kept whole. -/
theorem split_listed {items : List Text}
    (h : ∀ item ∈ items, item ≠ [] ∧ Text.Tight item ∧ KeptWhole item) :
    split ',' (listed items) = items := by
  cases items with
  | nil => rfl
  | cons item items =>
      have hspace : ∀ i ∈ items, Text.trim (' ' :: i) = i := by
        intro i hi
        have htight := (h i (List.mem_cons_of_mem _ hi)).2.1
        simpa using Text.trim_between Text.AllBlank.space htight Text.AllBlank.nil
      have htrim : ((item :: items.map (' ' :: ·)).map Text.trim) = item :: items := by
        rw [List.map_cons, List.map_map, Text.trim_of_tight (h item List.mem_cons_self).2.1]
        exact congrArg _ ((List.map_congr_left hspace).trans (List.map_id items))
      rw [split, pieces_listed (fun i hi => (h i hi).2.2) Text.AllBlank.nil, List.reverse_nil,
        List.nil_append, htrim, List.filter_eq_self]
      intro i hi
      simpa using (h i hi).1

/-- A list of trimmed items is trimmed. -/
theorem tight_listed {items : List Text} (h : ∀ item ∈ items, item ≠ [] ∧ Text.Tight item) :
    Text.Tight (listed items) := by
  induction items with
  | nil => exact Text.Tight.nil
  | cons item items ih =>
      obtain ⟨hne, htight⟩ := h item List.mem_cons_self
      have hmore := ih fun i hi => h i (List.mem_cons_of_mem _ hi)
      cases items with
      | nil => exact htight
      | cons next items =>
          have hnext : listed (next :: items) ≠ [] := by
            have hne := (h next (by simp)).1
            cases items <;> simp [listed, hne]
          have hcut : listed (item :: next :: items) =
              (item ++ [',', ' ']) ++ listed (next :: items) := by
            rw [listed_cons_cons]
            simp
          constructor
          · intro c hc
            rw [listed_cons_cons, List.head?_append_of_ne_nil _ hne] at hc
            exact htight.1 c hc
          · intro c hc
            rw [hcut, List.getLast?_append_of_ne_nil _ hnext] at hc
            exact hmore.2 c hc

/-! ## Strings in quotes -/

/-- A string in double quotes. -/
def quoted (s : Text) : Text := '"' :: (s ++ ['"'])

theorem tight_quoted (s : Text) : Text.Tight (quoted s) := by
  constructor
  · intro c hc
    obtain rfl : '"' = c := Option.some.inj hc
    decide
  · intro c hc
    rw [quoted, ← List.cons_append, List.getLast?_concat] at hc
    obtain rfl : '"' = c := Option.some.inj hc
    decide

theorem opensItem_of_allBlank {gap : Text} (h : Text.AllBlank gap) : opensItem gap = true := by
  have hgap : Text.trimStart gap = [] := List.dropWhile_eq_nil_iff.2 h
  rw [opensItem, hgap]

/-- Behind an opening quote all belongs to the present piece, up to the next such quote. -/
theorem pieces_quote {quote : Char} {s : Text} (hs : quote ∉ s) (depth : Nat)
    (current rest : Text) :
    pieces ',' depth (some quote) current (s ++ quote :: rest) =
      pieces ',' depth none (quote :: (s.reverse ++ current)) rest := by
  induction s generalizing current with
  | nil => rw [List.nil_append, pieces, if_pos rfl]; rfl
  | cons x s ih =>
      simp only [List.mem_cons, not_or] at hs
      rw [List.cons_append, pieces, if_neg (Ne.symm hs.1), ih hs.2]
      simp

/-- A string in quotes of either kind is kept whole, whatever it holds but its own quote. -/
theorem keptWhole_between_quotes {quote : Char} (hquote : quote = '"' ∨ quote = '\'') {s : Text}
    (h : quote ∉ s) : KeptWhole (quote :: (s ++ [quote])) := by
  intro gap rest hgap
  have hopens := opensItem_of_allBlank hgap
  have htext : quote :: (s ++ [quote]) ++ rest = quote :: (s ++ quote :: rest) := by simp
  rw [htext, pieces, if_pos ⟨hquote, hopens⟩, pieces_quote h]
  simp

theorem keptWhole_quoted {s : Text} (h : '"' ∉ s) : KeptWhole (quoted s) :=
  keptWhole_between_quotes (Or.inl rfl) h

/-! ## Items that no quote opens -/

theorem keptWhole_of_quiet {item : Text} (hquiet : ∀ gap, Quiet gap item) (hone : Unbroken 0 item)
    (hdepth : depthBehind 0 item = 0) : KeptWhole item := by
  intro gap rest _
  rw [pieces_append (hquiet gap) hone, hdepth]

theorem quiet_append {current s t : Text} :
    Quiet current (s ++ t) ↔ Quiet current s ∧ Quiet (s.reverse ++ current) t := by
  induction s generalizing current with
  | nil => simp [Quiet]
  | cons x s ih =>
      simp only [List.cons_append, Quiet, ih, List.reverse_cons, List.append_assoc,
        List.nil_append, and_assoc]

theorem quiet_listed {items : List Text} (h : ∀ item ∈ items, ∀ current, Quiet current item)
    (current : Text) : Quiet current (listed items) := by
  fun_induction listed items generalizing current with
  | case1 => trivial
  | case2 item => exact h item List.mem_cons_self current
  | case3 item items _ ih =>
      refine quiet_append.2 ⟨h item List.mem_cons_self current, ?_, ?_, ?_⟩
      · simp
      · simp
      · exact ih (fun i hi => h i (List.mem_cons_of_mem _ hi)) _

theorem unbroken_of_no_comma {t : Text} (h : ',' ∉ t) (depth : Nat) : Unbroken depth t := by
  induction t generalizing depth with
  | nil => trivial
  | cons x t ih =>
      simp only [List.mem_cons, not_or] at h
      exact ⟨fun hx => absurd hx.symm h.1, ih h.2 _⟩

/-! ## Names -/

/-- What can stand as a name in a list: quotes may, but not in front. -/
structure IsName (name : Text) : Prop where
  ne_nil : name ≠ []
  tight : Text.Tight name
  no_bracket : ∀ x ∈ name, Bracket.ofOpening? x = none ∧ Bracket.ofClosing? x = none
  no_comma : ',' ∉ name
  no_quote : ∀ x ∈ name.head?, x ≠ '"' ∧ x ≠ '\''

theorem opensItem_cons {x : Char} {current : Text} (hbracket : x ≠ '[') (hcomma : x ≠ ',')
    (h : isBlank x = true → opensItem current = false) : opensItem (x :: current) = false := by
  rw [opensItem, Text.trimStart]
  by_cases hblank : isBlank x = true
  · rw [List.dropWhile_cons_of_pos hblank]
    exact h hblank
  · rw [List.dropWhile_cons_of_neg hblank]
    simp [hbracket, hcomma]

/-- Behind a character of an item no quote opens another one. -/
theorem quiet_of_not_opensItem {current t : Text} (h : opensItem current = false)
    (hbracket : '[' ∉ t) (hcomma : ',' ∉ t) : Quiet current t := by
  induction t generalizing current with
  | nil => trivial
  | cons x t ih =>
      simp only [List.mem_cons, not_or] at hbracket hcomma
      refine ⟨fun _ => h, ih ?_ hbracket.2 hcomma.2⟩
      exact opensItem_cons (Ne.symm hbracket.1) (Ne.symm hcomma.1) fun _ => h

namespace IsName

variable {name : Text} (h : IsName name)
include h

theorem not_mem_opening (b : Bracket) : b.opening ∉ name := by
  intro hmem
  have hnone := (h.no_bracket _ hmem).1
  rw [Bracket.ofOpening?_opening] at hnone
  cases hnone

theorem nested : Bracket.Nested name := by
  refine .of_plain (List.all_eq_true.2 fun x hx => ?_)
  simp [h.no_bracket x hx]

theorem quiet (current : Text) : Quiet current name := by
  have hne := h.ne_nil
  have hbracket : '[' ∉ name := h.not_mem_opening .square
  have hcomma := h.no_comma
  cases hname : name with
  | nil => exact absurd hname hne
  | cons x t =>
      rw [hname, List.mem_cons, not_or] at hbracket hcomma
      have hhead : x ∈ name.head? := by rw [hname]; rfl
      have hopens : opensItem (x :: current) = false := by
        refine opensItem_cons (Ne.symm hbracket.1) (Ne.symm hcomma.1) fun hblank => ?_
        rw [h.tight.1 x hhead] at hblank
        cases hblank
      exact ⟨fun hx => absurd hx (not_or.2 (h.no_quote x hhead)),
        quiet_of_not_opensItem hopens hbracket.2 hcomma.2⟩

theorem keptWhole : KeptWhole name :=
  keptWhole_of_quiet h.quiet (unbroken_of_no_comma h.no_comma 0) (depthBehind_of_nested h.nested 0)

/-- A name is no quoted text. -/
theorem unquote : Note.unquote name = name := by
  rw [Note.unquote, Text.trim_of_tight h.tight]
  split
  · rfl
  · next q rest =>
      have hquote := not_or.2 (h.no_quote q rfl)
      rw [if_neg fun hq => hquote hq.1]

end IsName

/-! ## Items with brackets -/

/-- What can stand as an item in any spelling of a list: its brackets nest, its commas stand in
    brackets, and it has no quotes. -/
structure IsSealed (item : Text) : Prop where
  ne_nil : item ≠ []
  tight : Text.Tight item
  nested : Bracket.Nested item
  unbroken : Unbroken 0 item
  unquoted : Unquoted item

theorem IsSealed.keptWhole {item : Text} (h : IsSealed item) : KeptWhole item :=
  keptWhole_of_quiet (quiet_of_unquoted h.unquoted) h.unbroken (depthBehind_of_nested h.nested 0)

theorem split_sealed {items : List Text} (h : ∀ item ∈ items, IsSealed item) :
    split ',' (listed items) = items :=
  split_listed fun item hitem =>
    ⟨(h item hitem).ne_nil, (h item hitem).tight, (h item hitem).keptWhole⟩

/-! ## Lists in brackets -/

/-- A list of items in square brackets. -/
def written (items : List Text) : Text := '[' :: (listed items ++ [']'])

theorem tight_written (items : List Text) : Text.Tight (written items) :=
  Bracket.tight_enclosed .square (listed items)

theorem startsWith_written (items : List Text) : (written items).startsWith "[" = true := rfl

/-- The brackets of a list are found if those inside it match. -/
theorem strip?_written (items : List Text) :
    Bracket.square.strip? (written items) =
      if Bracket.Matched '[' ']' (listed items) then some (listed items) else none :=
  Bracket.strip?_enclosed (by decide) (listed items)

theorem strip?_written_of_nested {items : List Text} (h : ∀ item ∈ items, Bracket.Nested item) :
    Bracket.square.strip? (written items) = some (listed items) := by
  have hmatched : Bracket.Matched '[' ']' (listed items) := (nested_listed h).matched .square
  rw [strip?_written, if_pos hmatched]

/-- A list of nested items in brackets is itself kept whole, if no quote opens any of them. -/
theorem keptWhole_written {items : List Text} (hnested : ∀ item ∈ items, Bracket.Nested item)
    (hquiet : ∀ item ∈ items, ∀ current, Quiet current item) : KeptWhole (written items) := by
  have hlisted := nested_listed hnested
  refine keptWhole_of_quiet
    (fun gap => ⟨by simp, quiet_append.2 ⟨quiet_listed hquiet _, ?_, trivial⟩⟩)
    (unbroken_enclosed .square (unbroken_of_nested hlisted Nat.one_pos))
    (depthBehind_of_nested (hlisted.enclosed .square) 0)
  simp

end Items

end PlanGraph
