import PlanGraph.Proofs.Items.Whole

set_option autoImplicit false

/-! # Splitting undoes joining

The widest form of an item that a written list keeps whole. A string in quotes may hold anything but
its own quote. Any other item is made of plain characters and of groups in brackets that nest, with
its commas inside the groups (`Grouped`); it may hold quotes too, but none where a quote would open
an item (`QuotesInside`). A group then leaves the count of open brackets as it was, so the splitter
is outside all brackets and quotes again behind each item (`IsEntry.keptWhole`), and a list of such
items is read as it was written (`split_listed_entries`). -/

namespace PlanGraph

namespace Items

/-! ## Commas inside groups -/

/-- Plain characters and groups whose brackets nest, with commas only inside the groups. -/
inductive Grouped : Text → Prop where
  | nil : Grouped []
  | plain {x : Char} {t : Text} (hopening : Bracket.ofOpening? x = none)
      (hclosing : Bracket.ofClosing? x = none) (hcomma : x ≠ ',') (ht : Grouped t) :
      Grouped (x :: t)
  | group (b : Bracket) {inner t : Text} (hinner : Bracket.Nested inner) (ht : Grouped t) :
      Grouped (b.opening :: (inner ++ b.closing :: t))

theorem Grouped.nested {t : Text} (h : Grouped t) : Bracket.Nested t := by
  induction h with
  | nil => exact .nil
  | plain hopening hclosing _ _ ih => exact .plain hopening hclosing ih
  | group b hinner _ ih => exact .group b hinner ih

theorem Grouped.unbroken {t : Text} (h : Grouped t) : Unbroken 0 t := by
  induction h with
  | nil => trivial
  | plain hopening hclosing hcomma _ ih =>
      refine ⟨fun hx => absurd hx hcomma, ?_⟩
      rw [depthAfter_plain 0 hopening hclosing]
      exact ih
  | @group b inner t hinner _ ih =>
      have hgroup := unbroken_enclosed b (unbroken_of_nested hinner Nat.one_pos)
      have hrest : Unbroken (depthBehind 0 (b.opening :: (inner ++ [b.closing]))) t := by
        rw [depthBehind_of_nested (hinner.enclosed b)]
        exact ih
      simpa using unbroken_append.2 ⟨hgroup, hrest⟩

/-- Plain characters without commas may stand in front of anything. -/
theorem Grouped.append {s t : Text}
    (hs : s.all (fun x => (Bracket.ofOpening? x).isNone && (Bracket.ofClosing? x).isNone &&
      x != ',') = true) (ht : Grouped t) : Grouped (s ++ t) := by
  induction s with
  | nil => exact ht
  | cons x s ih =>
      simp only [List.all_cons, Bool.and_eq_true, Option.isNone_iff_eq_none, bne_iff_ne] at hs
      exact .plain hs.1.1.1 hs.1.1.2 hs.1.2 (ih hs.2)

/-! ## Quotes inside items -/

/-- A text in which each quote stands behind a character that opens no item: blanks apart, there is
    one before it, and it is neither `[` nor a comma. -/
def QuotesInside (t : Text) : Prop :=
  ∀ front q back, t = front ++ q :: back → q = '"' ∨ q = '\'' →
    ∃ c, (Text.trimEnd front).getLast? = some c ∧ c ≠ '[' ∧ c ≠ ','

theorem opensItem_reverse_eq_false_iff {front : Text} :
    opensItem front.reverse = false ↔
      ∃ c, (Text.trimEnd front).getLast? = some c ∧ c ≠ '[' ∧ c ≠ ',' := by
  rw [opensItem, Text.trimEnd, List.getLast?_reverse, Text.trimStart]
  cases front.reverse.dropWhile isBlank with
  | nil => simp
  | cons c rest => simp

theorem quiet_iff {current t : Text} :
    Quiet current t ↔ ∀ front q back, t = front ++ q :: back → q = '"' ∨ q = '\'' →
      opensItem (front.reverse ++ current) = false := by
  induction t generalizing current with
  | nil => simp [Quiet]
  | cons x t ih =>
      rw [Quiet, ih]
      constructor
      · rintro ⟨hhere, hrest⟩ front q back hcut hq
        cases front with
        | nil =>
            obtain ⟨rfl, -⟩ := List.cons.inj hcut
            exact hhere hq
        | cons y front =>
            obtain ⟨rfl, ht⟩ := List.cons.inj hcut
            simpa using hrest front q back ht hq
      · intro h
        refine ⟨h [] x t rfl, fun front q back hcut hq => ?_⟩
        simpa using h (x :: front) q back (congrArg _ hcut) hq

theorem quotesInside_iff {t : Text} : QuotesInside t ↔ Quiet [] t := by
  simp only [QuotesInside, quiet_iff, List.append_nil, opensItem_reverse_eq_false_iff]

instance Quiet.decidable : (current t : Text) → Decidable (Quiet current t)
  | _, [] => isTrue trivial
  | current, x :: rest =>
    have := Quiet.decidable (x :: current) rest
    inferInstanceAs
      (Decidable ((x = '"' ∨ x = '\'' → opensItem current = false) ∧ Quiet (x :: current) rest))

instance (t : Text) : Decidable (QuotesInside t) := decidable_of_iff _ quotesInside_iff.symm

/-- What stands in front of an item does not count for the quotes inside it. -/
theorem QuotesInside.quiet {t : Text} (h : QuotesInside t) (gap : Text) : Quiet gap t := by
  refine quiet_iff.2 fun front q back hcut hq => ?_
  have hinside := opensItem_reverse_eq_false_iff.2 (h front q back hcut hq)
  -- the character that counts stands in the item, so the gap is not reached
  rw [opensItem, Text.trimStart] at hinside ⊢
  rw [List.dropWhile_append]
  cases hdrop : front.reverse.dropWhile isBlank with
  | nil => simp [hdrop] at hinside
  | cons c rest => simpa [hdrop] using hinside

/-! ## Entries -/

/-- What can stand as an item of a list. -/
inductive IsEntry : Text → Prop where
  | quoted {quote : Char} {s : Text} (hquote : quote = '"' ∨ quote = '\'') (hs : quote ∉ s) :
      IsEntry (quote :: (s ++ [quote]))
  | grouped {item : Text} (hgrouped : Grouped item) (hquotes : QuotesInside item) : IsEntry item

theorem IsEntry.keptWhole {item : Text} (h : IsEntry item) : KeptWhole item := by
  cases h with
  | quoted hquote hs => exact keptWhole_between_quotes hquote hs
  | grouped hgrouped hquotes =>
      exact keptWhole_of_quiet hquotes.quiet hgrouped.unbroken
        (depthBehind_of_nested hgrouped.nested 0)

/-- A list of entries, written with a comma and a blank between them, is split into its entries. -/
theorem split_listed_entries {items : List Text}
    (h : ∀ item ∈ items, item ≠ [] ∧ Text.Tight item ∧ IsEntry item) :
    split ',' (listed items) = items :=
  split_listed fun item hitem =>
    ⟨(h item hitem).1, (h item hitem).2.1, (h item hitem).2.2.keptWhole⟩

/-- An apostrophe and a comma inside brackets, a quoted string with an open bracket, nested groups
    of two kinds and quotes behind a word. -/
def mixedEntries : List Text :=
  ["it's [don't, stop]", "'quoted, (item'", "<a, {b}>", "say \"so\""]

theorem split_mixedEntries :
    listed mixedEntries =
      "it's [don't, stop], 'quoted, (item', <a, {b}>, say \"so\"".toList ∧
    (∀ item ∈ mixedEntries, item ≠ [] ∧ Text.Tight item ∧ IsEntry item) ∧
    split ',' (listed mixedEntries) = mixedEntries := by
  have hentries : ∀ item ∈ mixedEntries, IsEntry item := by
    simp only [mixedEntries, List.forall_mem_cons, List.not_mem_nil, false_implies, implies_true,
      and_true]
    refine ⟨.grouped ?_ (by decide), ?_, .grouped ?_ (by decide), .grouped ?_ (by decide)⟩
    · have hgroup := Grouped.nil.group .square (.of_plain (t := "don't, stop") (by decide))
      exact hgroup.append (s := "it's ") (by decide)
    · exact .quoted (s := "quoted, (item") (Or.inr rfl) (by decide)
    · have hname := (Bracket.Nested.of_plain (t := "b") (by decide)).enclosed .curly
      exact Grouped.nil.group .angle (.append (t := "a, ") (.of_plain (by decide)) hname)
    · exact Grouped.nil.append (s := "say \"so\"") (by decide)
  have hall : ∀ item ∈ mixedEntries, item ≠ [] ∧ Text.Tight item ∧ IsEntry item := by
    have htight : ∀ item ∈ mixedEntries, item ≠ [] ∧ Text.Tight item := by decide
    exact fun item hitem => ⟨(htight item hitem).1, (htight item hitem).2, hentries item hitem⟩
  exact ⟨by decide, hall, split_listed_entries hall⟩

end Items

end PlanGraph
