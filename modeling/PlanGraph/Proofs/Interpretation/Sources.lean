import PlanGraph.Cluster.Tree
import PlanGraph.Interpretation.Assignment
import PlanGraph.Proofs.Formatting
import PlanGraph.Proofs.Json.Reading
import PlanGraph.Proofs.Line.Writing

set_option autoImplicit false

/-! # The sources of a specification

A specification lists its sources in a note or in its own text, and a note may be JSON or not. The
three are read by different means: JSON by its tokens, the plain note by stripping its brackets, the
text by a search for the argument that counts square brackets only. All of them give the same items
if the brackets of the items nest (`listedSources?_of_json`, `listedSources?_written`,
`inlineSources?_written`). A plain list is never taken for JSON, since an array of strings needs
quotes. -/

namespace PlanGraph

namespace Argument

/-- The first marker of a text counts if an argument follows it. -/
theorem findIn?_append {accepted : List Bracket} {front t : Text} {arg : Argument}
    (hfront : front.contains "%>" = false) (h : here? accepted t = some arg) :
    findIn? accepted "%>" (front ++ '%' :: '>' :: t) = some arg := by
  rw [findIn?, candidates]
  induction front with
  | nil =>
      have hread : (Text.after? ('%' :: '>' :: t) "%>").map
          (fun rest => (here? accepted rest, rest)) = some (here? accepted t, t) := rfl
      rw [List.nil_append, Text.allMatches_of_some hread (List.suffix_cons _ _), h]
      rfl
  | cons c front ih =>
      rw [Text.contains, Bool.or_eq_false_iff] at hfront
      have hnone : Text.after? (c :: (front ++ '%' :: '>' :: t)) "%>" = none := by
        rw [Option.eq_none_iff_forall_ne_some]
        intro rest hrest
        obtain ⟨rfl, hnext⟩ := List.cons.inj (Text.after?_eq_some_iff.1 hrest)
        -- what stands in front may end with `%`, but then a `%` follows and no `>`
        cases front with
        | nil => cases hnext
        | cons d front =>
            obtain ⟨rfl, -⟩ := List.cons.inj hnext
            cases hfront.1
      rw [List.cons_append, Text.allMatches_of_none (by rw [hnone]; rfl)]
      exact ih hfront.2

end Argument

namespace Items

/-- A sealed item does not open with a closing bracket or a gap. -/
theorem IsSealed.exists_cons {item : Text} (h : IsSealed item) :
    ∃ x rest, item = x :: rest ∧ x ≠ ']' ∧ Json.Token.isGap x = false := by
  obtain ⟨x, rest, rfl⟩ := List.exists_cons_of_ne_nil h.ne_nil
  refine ⟨x, rest, rfl, ?_, ?_⟩
  · rintro rfl
    have hmatched := (h.nested.matched .square).front [']'] ⟨rest, rfl⟩
    exact absurd hmatched (by decide)
  · rw [← Bool.not_eq_true]
    intro hgap
    have hblank : isBlank x = false := h.tight.1 x rfl
    simp only [Json.Token.isGap, Bool.or_eq_true, beq_iff_eq] at hgap
    rcases hgap with ((rfl | rfl) | rfl) | rfl <;> exact absurd hblank (by decide)

end Items

namespace Assignment

/-! ## Lists in a note -/

theorem ite_isEmpty_of_ne_nil {items : List Text} (h : items ≠ []) :
    (if items.isEmpty then none else some items) = some items :=
  if_neg fun hempty => h (List.isEmpty_iff.1 hempty)

theorem listedSources?_of_json {items : List Text} (hne : items ≠ []) {note : Text}
    (h : Json.read? note = some (.ofTexts items)) : listedSources? note = some items := by
  simp only [listedSources?, h, Option.bind_some, Json.texts?_ofTexts, Option.getD_some,
    ite_isEmpty_of_ne_nil hne]

section Sealed

variable {items : List Text} (hitems : ∀ item ∈ items, Items.IsSealed item)
include hitems

theorem plainItems_written : plainItems (Items.written items) = items := by
  have hunquoted := Items.unquoted_listed fun item hitem => (hitems item hitem).unquoted
  have hstrip := Items.strip?_written_of_nested fun item hitem => (hitems item hitem).nested
  simp only [plainItems, hstrip, Option.getD_some]
  rw [Items.map_unquote_split hunquoted, Items.split_sealed hitems, List.filter_eq_self]
  intro item hitem
  simpa using (hitems item hitem).ne_nil

/-- A plain list is no JSON array of strings, for want of quotes. -/
theorem texts?_read?_written (hne : items ≠ []) :
    (Json.read? (Items.written items)).bind Json.texts? = none := by
  obtain ⟨item, more, rfl⟩ := List.exists_cons_of_ne_nil hne
  obtain ⟨x, rest, hitem, hclose, hgap⟩ := (hitems item List.mem_cons_self).exists_cons
  obtain ⟨behind, hbehind⟩ : ∃ behind, Items.listed (item :: more) = x :: behind := by
    cases more <;> simp [Items.listed, hitem]
  have hunquoted := Items.unquoted_listed fun item hitem => (hitems item hitem).unquoted
  have hquote : '"' ∉ x :: (behind ++ [']']) := by
    rw [← List.cons_append, ← hbehind]
    simpa using hunquoted.1
  rw [Items.written, hbehind]
  exact Json.texts?_read?_of_no_quote hgap hclose hquote

theorem listedSources?_written (hne : items ≠ []) :
    listedSources? (Items.written items) = some items := by
  simp only [listedSources?, texts?_read?_written hitems hne, plainItems_written hitems,
    Option.getD_none, ite_isEmpty_of_ne_nil hne]

/-! ## Lists in the text -/

theorem inlineSources?_written (hne : items ≠ []) {front : Text}
    (hfront : front.contains "%>" = false) (back : Text) :
    inlineSources? (front ++ '%' :: '>' :: (Items.written items ++ back)) = some items := by
  have hnested := Items.nested_listed fun item hitem => (hitems item hitem).nested
  have htight := Items.tight_listed fun item hitem =>
    ⟨(hitems item hitem).ne_nil, (hitems item hitem).tight⟩
  have henclosed : Bracket.enclosed? (Items.written items ++ back) =
      some (.square, Items.listed items, back) := by
    have htext : Items.written items ++ back =
        Bracket.square.opening :: (Items.listed items ++ Bracket.square.closing :: back) := by
      rw [Items.written, List.cons_append, List.append_assoc]
      rfl
    rw [htext, Bracket.enclosed?_of_matched (by decide) (hnested.matched .square)]
  have harg : Argument.here? [.square] (Items.written items ++ back) =
      some ⟨.square, Items.listed items⟩ := by
    simp [Argument.here?, henclosed, Text.trim_of_tight htight]
  simp only [inlineSources?, Argument.findIn?_append hfront harg, Option.bind_eq_bind,
    Option.bind_some, Items.split_sealed hitems, ite_isEmpty_of_ne_nil hne]

end Sealed

end Assignment

/-! ## Written lines -/

/-- The parsed line of a role line that is written in the plan. -/
theorem Line.of_mem_parse_write {width : Nat} {source : Text} {l : Line}
    (h : l ∈ Line.parse width source) {indent concept : Text} {role : Role}
    {notes : List (Text × Text)} (hindent : Text.AllBlank indent)
    (hconcept : Line.IsConcept concept)
    (hnotes : ∀ note ∈ notes, Note.IsKey note.1 ∧ Note.IsValue note.2)
    (hline : (Text.splitOn '\n' source)[l.lineNumber - 1]? =
      some (Line.write indent role concept notes)) :
    l.stripped = concept ∧
      ∀ key value, notes.lookup key = some value → l.notes.get? key = some value := by
  rw [Line.parse_eq_readFrom] at h
  obtain ⟨n, cursor, raw, followers, ⟨-, hraw⟩, -, rfl⟩ := Line.exists_ofRole_of_mem_readFrom h
  rw [Line.lineNumber_ofRole, hraw] at hline
  obtain rfl := Option.some.inj hline
  obtain ⟨hcontent, hget⟩ := Line.ofRole_write width n cursor followers role hindent hconcept hnotes
  refine ⟨?_, hget⟩
  have hblank : Text.trimStart (' ' :: concept) = concept := by
    have hspace := Text.trimStart_append concept Text.AllBlank.space
    rwa [Text.trimStart_of_head hconcept.tight.1] at hspace
  rw [Line.stripped, hcontent, Role.strip_symbol_append, hblank, Text.trim_of_tight hconcept.tight]

namespace Assignment

theorem source_of_specification {c : Cluster}
    (h : c.function.classification.operator = some .specification) (noneAxis : Text) :
    (ofCluster noneAxis c).source = some (specificationSource c) := by
  have hoperator : operator? c = some .specification := by
    rw [operator?, h]
    rfl
  simp only [ofCluster, hoperator]

/-- **The three spellings of a list of sources agree.** A specification has the listed sources, in
    their order, if its note is a JSON array of them, if its note is the plain list, and if it has
    no note and the plain list is its first argument. On a line that is written in the plan, the
    text and the notes are those that were written. -/
theorem source_of_spelling {width : Nat} {source : Text} {c : Cluster}
    (hparse : c.function ∈ Line.parse width source)
    (hop : c.function.classification.operator = some .specification) {items : List Text}
    (hne : items ≠ []) (hitems : ∀ item ∈ items, Items.IsSealed item) (noneAxis : Text) :
    (∀ note, c.function.notes.get? "assign_sources" = some note →
      (note = Items.written (items.map Json.quote) ∨ Json.read? note = some (.ofTexts items) ∨
        note = Items.written items) →
      (ofCluster noneAxis c).source = some (.many items)) ∧
    (∀ front back, c.function.notes.get? "assign_sources" = none →
      c.function.stripped = front ++ '%' :: '>' :: (Items.written items ++ back) →
      front.contains "%>" = false →
      (ofCluster noneAxis c).source = some (.many items)) ∧
    (∀ indent concept notes, Text.AllBlank indent → Line.IsConcept concept →
      (∀ note ∈ notes, Note.IsKey note.1 ∧ Note.IsValue note.2) →
      (Text.splitOn '\n' source)[c.function.lineNumber - 1]? =
        some (Line.write indent .operator concept notes) →
      c.function.stripped = concept ∧
        ∀ key value, notes.lookup key = some value → c.function.notes.get? key = some value) := by
  rw [source_of_specification hop]
  refine ⟨fun note hnote hspelling => ?_, fun front back hnone htext hfront => ?_,
    fun indent concept notes => Line.of_mem_parse_write hparse⟩
  · have hlisted : listedSources? note = some items := by
      rcases hspelling with rfl | hjson | rfl
      · exact listedSources?_of_json hne (Json.read?_written_quote items)
      · exact listedSources?_of_json hne hjson
      · exact listedSources?_written hitems hne
    simp only [specificationSource, hnote, Option.bind_some, hlisted]
  · have hinline := inlineSources?_written hitems hne hfront back
    simp only [specificationSource, hnone, Option.bind_none, htext, hinline]

/-- Sources with commas in their brackets. -/
def bracketedSources : List Text := ["{sum of (a, b)}", "<[x, y] fit>", "[all]"]

theorem isSealed_bracketedSources : ∀ item ∈ bracketedSources, Items.IsSealed item := by
  have hpair : Bracket.Nested "{sum of (a, b)}".toList := by
    have hinner : Bracket.Nested "a, b".toList := .of_plain (by decide)
    have hsum : Bracket.Nested "sum of ".toList := .of_plain (by decide)
    exact (hsum.append (hinner.enclosed .round)).enclosed .curly
  have hfit : Bracket.Nested "<[x, y] fit>".toList := by
    have hinner : Bracket.Nested "x, y".toList := .of_plain (by decide)
    have hrest : Bracket.Nested " fit".toList := .of_plain (by decide)
    exact ((hinner.enclosed .square).append hrest).enclosed .angle
  have hall : Bracket.Nested "[all]".toList :=
    (Bracket.Nested.of_plain (t := "all".toList) (by decide)).enclosed .square
  intro item hitem
  simp only [bracketedSources, List.mem_cons, List.not_mem_nil, or_false] at hitem
  rcases hitem with rfl | rfl | rfl
  · exact ⟨by decide, by decide, hpair, by decide, by decide⟩
  · exact ⟨by decide, by decide, hfit, by decide, by decide⟩
  · exact ⟨by decide, by decide, hall, by decide, by decide⟩

/-- A plan that lists the sources in each of the three spellings. -/
def spelledSources : Text :=
  ":<: {p}\n    <= $. | %{assign_sources}: " ++
    "[\"{sum of (a, b)}\", \"<[x, y] fit>\", \"[all]\"]\n" ++
    ":<: {q}\n    <= $. | %{assign_sources}: " ++
    "[{sum of (a, b)}, <[x, y] fit>, [all]]\n" ++
    ":<: {r}\n    <= $. %>[{sum of (a, b)}, <[x, y] fit>, [all]] %<({r})\n"

theorem source_of_spelling_spelledSources :
    (Tree.clusters (Line.parse 4 spelledSources)).length = 3 ∧
    ∀ c ∈ Tree.clusters (Line.parse 4 spelledSources),
      (ofCluster "none" c).source = some (.many bracketedSources) := by
  have hfacts : (Tree.clusters (Line.parse 4 spelledSources)).length = 3 ∧
      ∀ c ∈ Tree.clusters (Line.parse 4 spelledSources), c.function ∈ Line.parse 4 spelledSources ∧
        c.function.classification.operator = some .specification ∧
        ((∃ note ∈ [Items.written (bracketedSources.map Json.quote),
            Items.written bracketedSources],
          (Text.splitOn '\n' spelledSources)[c.function.lineNumber - 1]? =
            some (Line.write "    " .operator "$." [("assign_sources".toList, note)])) ∨
        (c.function.notes.get? "assign_sources" = none ∧
          c.function.stripped = "$. ".toList ++
            '%' :: '>' :: (Items.written bracketedSources ++ " %<({r})".toList))) := by
    decide +kernel
  refine ⟨hfacts.1, fun c hc => ?_⟩
  obtain ⟨hparse, hop, hspelling⟩ := hfacts.2 c hc
  obtain ⟨hlisted, hinline, hwritten⟩ :=
    source_of_spelling hparse hop (by decide) isSealed_bracketedSources "none"
  rcases hspelling with ⟨note, hnote, hline⟩ | ⟨hnone, htext⟩
  · have hkey : Note.IsKey "assign_sources" :=
      ⟨by decide, by decide, by decide, by decide, by decide⟩
    have hspelling : note = Items.written (bracketedSources.map Json.quote) ∨
        note = Items.written bracketedSources := by simpa using hnote
    have hvalue : Note.IsValue note := by
      rcases hspelling with rfl | rfl <;> exact ⟨by decide, by decide⟩
    have hget := (hwritten _ _ _ (by decide) ⟨by decide, by decide, by decide, by decide⟩
      (List.forall_mem_singleton.2 ⟨hkey, hvalue⟩) hline).2 "assign_sources".toList note rfl
    exact hlisted note hget (hspelling.imp_right .inr)
  · exact hinline _ _ hnone htext (by decide)

end Assignment

end PlanGraph
