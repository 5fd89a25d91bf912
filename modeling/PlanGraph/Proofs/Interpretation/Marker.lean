import PlanGraph.Cluster.Tree
import PlanGraph.Interpretation.Grouping
import PlanGraph.Interpretation.Timing
import PlanGraph.Proofs.Sequence

set_option autoImplicit false

/-! # Markers and operators

A line is classified by the symbol that opens its text, but the marker of a timing or of a grouping
is looked for in the whole text, and the symbols are tried in an order that does not depend on the
operator. So a symbol that is tried before that of the operator takes its place wherever it stands,
in an argument too (`Timing.marker_of_opening?`, `Grouping.markerOf_of_opening?`). The marker is
that of the operator if and only if there is none such behind it
(`marker_eq_iff_not_overridden`). -/

namespace PlanGraph

/-- A literal begins nowhere in a text that does not have its first character. -/
theorem Text.contains_append_of_not_mem {x : Char} {s : Text} (p rest : Text) (h : x ∉ s) :
    Text.contains (s ++ rest) (x :: p) = Text.contains rest (x :: p) := by
  induction s with
  | nil => rfl
  | cons c s ih =>
      simp only [List.mem_cons, not_or] at h
      have hstart : Text.startsWith (c :: (s ++ rest)) (x :: p) = false := by
        simp [Text.startsWith, List.isPrefixOf, h.1]
      rw [List.cons_append, Text.contains, hstart, Bool.false_or, ih h.2]

namespace Operator

/-! ## Symbols behind a symbol -/

/-- A symbol has no character inside that may open one. -/
theorem sequenceAt?_tail {op : Operator} {x : Char} (h : x ∈ op.symbol.tail) :
    sequenceAt? x = none := by
  have hall : (op.symbol.tail.all fun x => (sequenceAt? x).isNone) = true := by
    cases op <;> decide
  exact Option.isNone_iff_eq_none.1 (List.all_eq_true.1 hall x h)

/-- A symbol in the text of an operator stands in front or behind the operator's own. -/
theorem contains_symbol_append (op other : Operator) (rest : Text) :
    Text.contains (op.symbol ++ rest) other.symbol =
      (Text.startsWith (op.symbol ++ rest) other.symbol || Text.contains rest other.symbol) := by
  have hhead := sequenceAt?_head other
  cases hother : other.symbol with
  | nil => rw [hother] at hhead; cases hhead
  | cons x p =>
      have hx : x ∉ op.symbol.tail := by
        intro hmem
        rw [hother, List.head?_cons, Option.bind_some, sequenceAt?_tail hmem] at hhead
        cases hhead
      cases hop : op.symbol with
      | nil =>
          rw [List.nil_append, Bool.or_eq_right_iff_imp.2 fun hstart => ?_]
          exact Text.contains_iff.2 (List.isPrefixOf_iff_prefix.1 hstart).isInfix
      | cons c symbol =>
          rw [hop, List.tail_cons] at hx
          rw [List.cons_append, Text.contains, Text.contains_append_of_not_mem p rest hx]

theorem contains_own (op : Operator) (rest : Text) :
    Text.contains (op.symbol ++ rest) op.symbol = true :=
  Text.contains_iff.2 (List.prefix_append _ _).isInfix

/-! ## The operator that prevails -/

/-- The operators whose markers go before that of `op`, in the order in which they are tried. -/
def overriding : Operator → List Operator
  | timingIf => [timingIfNot]
  | timingAfter => [timingIfNot, timingIf]
  | timingBy => [timingIfNot, timingIf, timingAfter]
  | groupIn => [groupAcross]
  | _ => []

/-- The operator that gives the marker of a text: the first overriding one whose symbol stands
    behind that of `op`, else `op`. -/
def prevailing (op : Operator) (rest : Text) : Operator :=
  (op.overriding.find? fun other => rest.contains other.symbol).getD op

theorem startsWith_overriding {op other : Operator} {rest : Text}
    (hop : opening? (op.symbol ++ rest) = some op) (hother : other ∈ op.overriding) :
    Text.startsWith (op.symbol ++ rest) other.symbol = false := by
  cases op with
  | timingIf =>
      obtain rfl := List.mem_singleton.1 hother
      rw [← Bool.not_eq_true]
      intro hstart
      -- the symbol `@if!` is recognised before `@if`
      obtain ⟨more, hmore⟩ := List.isPrefixOf_iff_prefix.1 hstart
      rw [← hmore] at hop
      cases hop
  | timingAfter =>
      simp only [overriding, List.mem_cons, List.not_mem_nil, or_false] at hother
      rcases hother with rfl | rfl <;> rfl
  | timingBy =>
      simp only [overriding, List.mem_cons, List.not_mem_nil, or_false] at hother
      rcases hother with rfl | rfl | rfl <;> rfl
  | groupIn =>
      obtain rfl := List.mem_singleton.1 hother
      rfl
  | _ => cases hother

theorem contains_overriding {op : Operator} {rest : Text}
    (hop : opening? (op.symbol ++ rest) = some op) (other : Operator)
    (hother : other ∈ op.overriding) :
    Text.contains (op.symbol ++ rest) other.symbol = Text.contains rest other.symbol := by
  rw [contains_symbol_append, startsWith_overriding hop hother, Bool.false_or]

/-- A reading that tells an operator from those that override it finds the operator itself if and
    only if no symbol of theirs stands in the rest. -/
theorem prevailing_iff {α : Type} {reading : Operator → α} {op : Operator} (rest : Text)
    (h : ∀ other ∈ op.overriding, reading other ≠ reading op) :
    reading (op.prevailing rest) = reading op ↔
      ∀ other ∈ op.overriding, rest.contains other.symbol = false := by
  rw [prevailing]
  cases hfind : op.overriding.find? fun other => rest.contains other.symbol with
  | none =>
      refine iff_of_true rfl fun other hother => ?_
      simpa using List.find?_eq_none.1 hfind other hother
  | some other =>
      have hother := List.mem_of_find?_eq_some hfind
      refine iff_of_false (h other hother) fun hnone => ?_
      have hcontains := List.find?_some hfind
      rw [hnone other hother] at hcontains
      cases hcontains

end Operator

/-! ## Timings -/

/-- The marker of an operator that times; none for `@by`. -/
def TimingMarker.ofOperator? : Operator → Option TimingMarker
  | .timingIfNot => some ifNot
  | .timingIf => some ifTrue
  | .timingAfter => some after
  | _ => none

theorem TimingMarker.ofOperator?_overriding {op other : Operator} (hop : op.sequence = .timing)
    (hother : other ∈ op.overriding) : ofOperator? other ≠ ofOperator? op := by
  cases op with
  | timingIfNot => cases hother
  | timingIf | timingAfter | timingBy => revert other; decide
  | _ => cases hop

theorem Timing.marker_of_opening? {op : Operator} {rest : Text} (htiming : op.sequence = .timing)
    (hop : Operator.opening? (op.symbol ++ rest) = some op) :
    TimingMarker.ofText? (op.symbol ++ rest) = TimingMarker.ofOperator? (op.prevailing rest) := by
  have hown := op.contains_own rest
  have hover := Operator.contains_overriding hop
  simp only [TimingMarker.ofText?]
  cases op with
  | timingIfNot => rw [if_pos hown]; rfl
  | timingIf =>
      rw [hover .timingIfNot (by decide), if_pos hown]
      simp only [Operator.prevailing, Operator.overriding, List.find?]
      cases rest.contains Operator.timingIfNot.symbol <;> rfl
  | timingAfter =>
      rw [hover .timingIfNot (by decide), hover .timingIf (by decide), if_pos hown]
      simp only [Operator.prevailing, Operator.overriding, List.find?]
      cases rest.contains Operator.timingIfNot.symbol <;>
        cases rest.contains Operator.timingIf.symbol <;> rfl
  | timingBy =>
      rw [hover .timingIfNot (by decide), hover .timingIf (by decide),
        hover .timingAfter (by decide)]
      simp only [Operator.prevailing, Operator.overriding, List.find?]
      cases rest.contains Operator.timingIfNot.symbol <;>
        cases rest.contains Operator.timingIf.symbol <;>
          cases rest.contains Operator.timingAfter.symbol <;> rfl
  | _ => cases htiming

/-! ## Groupings -/

/-- The marker of an operator that groups. -/
def GroupMarker.ofOperator : Operator → GroupMarker
  | .groupAcross => across
  | _ => within

theorem GroupMarker.ofOperator_overriding {op other : Operator} (hop : op.sequence = .grouping)
    (hother : other ∈ op.overriding) : ofOperator other ≠ ofOperator op := by
  cases op with
  | groupIn => revert other; decide
  | groupAcross => cases hother
  | _ => cases hop

theorem Grouping.markerOf_of_opening? {c : Cluster} {op : Operator} {rest : Text}
    (hgrouping : op.sequence = .grouping) (ht : c.function.stripped = op.symbol ++ rest)
    (hop : Operator.opening? (op.symbol ++ rest) = some op) :
    markerOf c = GroupMarker.ofOperator (op.prevailing rest) := by
  have hown := op.contains_own rest
  simp only [markerOf, ht]
  cases op with
  | groupIn =>
      rw [Operator.contains_overriding hop .groupAcross (by decide), if_pos hown]
      simp only [Operator.prevailing, Operator.overriding, List.find?]
      cases rest.contains Operator.groupAcross.symbol <;> rfl
  | groupAcross => rw [if_pos hown]; rfl
  | _ => cases hgrouping

/-! ## Parsed lines -/

/-- The marker of a parsed operation is that of the operator that prevails in its text. So the
    marker and the classification agree exactly if no symbol of an overriding operator stands behind
    the one that opens the text: always for `@if!` and `&[#]`, which nothing overrides. -/
theorem marker_eq_iff_not_overridden {width : Nat} {source : Text} {c : Cluster} {op : Operator}
    (hparse : c.function ∈ Line.parse width source)
    (hop : c.function.classification.operator = some op) :
    ∃ rest, c.function.stripped = op.symbol ++ rest ∧
      (op.sequence = .timing →
        (Timing.ofCluster c).marker = TimingMarker.ofOperator? (op.prevailing rest) ∧
        ((Timing.ofCluster c).marker = TimingMarker.ofOperator? op ↔
          ∀ other ∈ op.overriding, rest.contains other.symbol = false)) ∧
      (op.sequence = .grouping → ∀ noneAxis,
        (Grouping.ofCluster noneAxis c).marker = GroupMarker.ofOperator (op.prevailing rest) ∧
        ((Grouping.ofCluster noneAxis c).marker = GroupMarker.ofOperator op ↔
          ∀ other ∈ op.overriding, rest.contains other.symbol = false)) := by
  have hopening := (Line.wellRead_of_mem_parse hparse).opening?_stripped
  rw [hop] at hopening
  obtain ⟨rest, hrest⟩ := List.isPrefixOf_iff_prefix.1 (Operator.startsWith_of_opening? hopening)
  refine ⟨rest, hrest.symm, fun htiming => ?_, fun hgrouping noneAxis => ?_⟩
  · have hmarker : (Timing.ofCluster c).marker = TimingMarker.ofOperator? (op.prevailing rest) := by
      rw [← hrest] at hopening
      rw [Timing.ofCluster, ← hrest, Timing.marker_of_opening? htiming hopening]
    refine ⟨hmarker, ?_⟩
    rw [hmarker]
    exact Operator.prevailing_iff rest fun _ => TimingMarker.ofOperator?_overriding htiming
  · have hmarker : (Grouping.ofCluster noneAxis c).marker =
        GroupMarker.ofOperator (op.prevailing rest) := by
      rw [← hrest] at hopening
      exact Grouping.markerOf_of_opening? hgrouping hrest.symm hopening
    refine ⟨hmarker, ?_⟩
    rw [hmarker]
    exact Operator.prevailing_iff rest fun _ => GroupMarker.ofOperator_overriding hgrouping

/-- A plan in which symbols stand in arguments, but none that overrides its operator. -/
def weakerSymbols : Text :=
  ":<: {a}\n    <= @if! %>(<what @if says>)\n" ++
    ":<: {b}\n    <= @if %>(<what comes @after>)\n" ++
    ":<: {c}\n    <= @after %>({what is done @by})\n" ++
    ":<: {d}\n    <= @by %>({hand})\n" ++
    ":<: {e}\n    <= &[{}] %>[{x}, {y}]\n" ++
    ":<: {f}\n    <= &[#] %>[{all of &[{}]}]\n"

theorem marker_weakerSymbols :
    (Tree.clusters (Line.parse 4 weakerSymbols)).map (·.function.classification.operator) =
      [some .timingIfNot, some .timingIf, some .timingAfter, some .timingBy, some .groupIn,
        some .groupAcross] ∧
    ∀ c ∈ Tree.clusters (Line.parse 4 weakerSymbols), ∀ op ∈ c.function.classification.operator,
      (op.sequence = .timing → (Timing.ofCluster c).marker = TimingMarker.ofOperator? op) ∧
      (op.sequence = .grouping →
        (Grouping.ofCluster "none" c).marker = GroupMarker.ofOperator op) := by
  have hfacts : (Tree.clusters (Line.parse 4 weakerSymbols)).map
        (·.function.classification.operator) =
          [some .timingIfNot, some .timingIf, some .timingAfter, some .timingBy, some .groupIn,
            some .groupAcross] ∧
      ∀ c ∈ Tree.clusters (Line.parse 4 weakerSymbols), c.function ∈ Line.parse 4 weakerSymbols ∧
        ∀ op ∈ c.function.classification.operator, ∀ other ∈ op.overriding,
          Text.contains (c.function.stripped.drop op.symbol.length) other.symbol = false := by
    decide +kernel
  refine ⟨hfacts.1, fun c hc op hop => ?_⟩
  obtain ⟨hparse, hnone⟩ := hfacts.2 c hc
  obtain ⟨rest, hrest, htiming, hgrouping⟩ := marker_eq_iff_not_overridden hparse hop
  have hfree := hnone op hop
  rw [hrest, List.drop_left] at hfree
  exact ⟨fun h => (htiming h).2.2 hfree, fun h => (hgrouping h _).2.2 hfree⟩

/-- A plan in which each argument names a symbol that overrides its operator. -/
def strayingSymbols : Text :=
  ":<: {a}\n    <= @if %>(<the @if! form>)\n" ++
    ":<: {b}\n    <= @after %>({the @if form})\n" ++
    ":<: {c}\n    <= @by %>({what comes @after})\n" ++
    ":<: {d}\n    <= &[{}] %>[{all of &[#]}]\n"

/-- A symbol in an argument takes the place of the operator's own. -/
theorem marker_strayingSymbols :
    (∀ c ∈ Tree.clusters (Line.parse 4 strayingSymbols),
      c.function ∈ Line.parse 4 strayingSymbols) ∧
    (Tree.clusters (Line.parse 4 strayingSymbols)).map (·.function.classification.operator) =
      [some .timingIf, some .timingAfter, some .timingBy, some .groupIn] ∧
    (Tree.clusters (Line.parse 4 strayingSymbols)).map (Timing.ofCluster · |>.marker) =
      [some .ifNot, some .ifTrue, some .after, none] ∧
    (Tree.clusters (Line.parse 4 strayingSymbols)).map (Grouping.ofCluster "none" · |>.marker) =
      [.within, .within, .within, .across] := by
  decide +kernel

end PlanGraph
