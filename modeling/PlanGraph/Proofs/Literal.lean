import PlanGraph.Literal
import PlanGraph.Proofs.Items.Whole

set_option autoImplicit false

/-! # Lists of quoted strings

A quoted string in a list may hold commas, brackets of every kind and the other quote: the list keeps
it whole, and it stands for what its quotes enclose (`scalar?_quoted`). But the brackets of the list
are found before its items are, by a count that knows no quotes. So a list of quoted strings is read
as such exactly if the square brackets in all the strings together match (`ofText_quoted_iff`), and
stands for its own text otherwise. -/

namespace PlanGraph

namespace Literal

/-! ## One string -/

theorem quoted?_quoted {s : Text} (h : '"' ∉ s) : quoted? (Items.quoted s) = some s := by
  simp [Items.quoted, quoted?, h]

theorem isNumber_quoted (s : Text) : isNumber (Items.quoted s) = false := rfl

theorem not_mem_constants_quoted (s : Text) : constants.contains (Items.quoted s) = false := by
  have hheads : constants.all (·.head? != some '"') = true := by decide
  rw [← Bool.not_eq_true, List.contains_iff_mem]
  intro hmem
  have hhead := List.all_eq_true.1 hheads _ hmem
  simp [Items.quoted] at hhead

/-- A quoted string stands for what its quotes enclose. -/
theorem scalar?_quoted {s : Text} (h : '"' ∉ s) : scalar? (Items.quoted s) = some (sign s) := by
  rw [scalar?, Text.trim_of_tight (Items.tight_quoted s), isNumber_quoted, not_mem_constants_quoted,
    quoted?_quoted h]
  rfl

/-! ## Lists of strings -/

/-- The text of a list of strings, each in double quotes. -/
def quotedList (strings : List Text) : Text := Items.written (strings.map Items.quoted)

theorem items?_quoted {strings : List Text} (h : ∀ s ∈ strings, '"' ∉ s) :
    items? (strings.map Items.quoted) = some (strings.map sign) :=
  mapM_map_eq_some fun s hs => scalar?_quoted (h s hs)

theorem split_quoted {strings : List Text} (h : ∀ s ∈ strings, '"' ∉ s) :
    Items.split ',' (Items.listed (strings.map Items.quoted)) = strings.map Items.quoted := by
  refine Items.split_listed fun item hitem => ?_
  obtain ⟨s, hs, rfl⟩ := List.mem_map.1 hitem
  exact ⟨List.cons_ne_nil _ _, Items.tight_quoted s, Items.keptWhole_quoted (h s hs)⟩

/-- Square brackets stand in the strings only. -/
theorem matched_quoted_iff (strings : List Text) :
    Bracket.Matched '[' ']' (Items.listed (strings.map Items.quoted)) ↔
      Bracket.Matched '[' ']' strings.flatten := by
  have hfilter : (Items.listed (strings.map Items.quoted)).filter (fun x => x == '[' || x == ']') =
      strings.flatten.filter (fun x => x == '[' || x == ']') := by
    induction strings with
    | nil => rfl
    | cons s strings ih =>
        cases strings with
        | nil => simp [Items.listed, Items.quoted]
        | cons next strings =>
            rw [List.map_cons, List.map_cons, Items.listed_cons_cons, ← List.map_cons,
              List.flatten_cons, List.filter_append, List.filter_append, ← ih]
            simp [Items.quoted]
  rw [← Bracket.matched_filter (p := fun x => x == '[' || x == ']') rfl rfl, hfilter,
    Bracket.matched_filter rfl rfl]

theorem structural?_quotedList {strings : List Text} (h : ∀ s ∈ strings, '"' ∉ s) :
    structural? (quotedList strings) =
      if Bracket.Matched '[' ']' strings.flatten then some (many (strings.map sign)) else none := by
  have hstrip := Items.strip?_written (strings.map Items.quoted)
  simp only [matched_quoted_iff] at hstrip
  rw [structural?, quotedList, Text.trim_of_tight (Items.tight_written _),
    if_pos (Items.startsWith_written _), hstrip]
  split
  · simp [split_quoted h, items?_quoted h]
  · rfl

/-- A list of quoted strings is read as their signs exactly if the square brackets in the strings,
    taken together, match; else it stands for its own text. So it is read if the brackets of each
    string match, whatever else the strings hold. -/
theorem ofText_quoted_iff {strings : List Text} (h : ∀ s ∈ strings, '"' ∉ s) :
    (ofText (quotedList strings) = many (strings.map sign) ↔
      Bracket.Matched '[' ']' strings.flatten) ∧
    (¬ Bracket.Matched '[' ']' strings.flatten →
      ofText (quotedList strings) = one (sign (quotedList strings))) ∧
    ((∀ s ∈ strings, Bracket.Matched '[' ']' s) →
      ofText (quotedList strings) = many (strings.map sign)) := by
  have hread : Bracket.Matched '[' ']' strings.flatten →
      ofText (quotedList strings) = many (strings.map sign) := by
    intro hmatched
    rw [ofText, structural?_quotedList h, if_pos hmatched, Option.getD_some]
  have hkept : ¬ Bracket.Matched '[' ']' strings.flatten →
      ofText (quotedList strings) = one (sign (quotedList strings)) := by
    intro hmatched
    have htight : Text.Tight (quotedList strings) := Items.tight_written _
    rw [ofText, structural?_quotedList h, if_neg hmatched, Option.getD_none,
      Text.trim_of_tight htight]
  refine ⟨⟨fun hmany => ?_, hread⟩, hkept, fun heach => hread (Bracket.matched_flatten heach)⟩
  by_contra hmatched
  rw [hkept hmatched] at hmany
  cases hmany

/-- Strings with commas, apostrophes and blanks at their ends, an empty one, and a bracket that
    closes in another string than it opens in. -/
def trickyStrings : List Text := ["a, (b", " it's ", "", "x [", "] y"]

theorem ofText_quoted_trickyStrings :
    quotedList trickyStrings = "[\"a, (b\", \" it's \", \"\", \"x [\", \"] y\"]".toList ∧
    (∀ s ∈ trickyStrings, '"' ∉ s) ∧
    ofText (quotedList trickyStrings) =
      many ["%(a, (b)", "%( it's )", "%()", "%(x [)", "%(] y)"] := by
  have hfree : ∀ s ∈ trickyStrings, '"' ∉ s := by decide
  refine ⟨by decide, hfree, ?_⟩
  exact (ofText_quoted_iff hfree).1.2 (by decide)

/-- A bracket in quotes ends the list, which then is no list. -/
theorem ofText_closingBracket :
    (∀ s ∈ ["a]".toList, "b".toList], '"' ∉ s ∧ '\n' ∉ s) ∧
    quotedList ["a]", "b"] = "[\"a]\", \"b\"]".toList ∧
    ofText (quotedList ["a]", "b"]) = one "%([\"a]\", \"b\"])" ∧
    ofText (quotedList ["a]", "b"]) ≠ many (["a]".toList, "b".toList].map sign) := by
  decide +kernel

end Literal

end PlanGraph
