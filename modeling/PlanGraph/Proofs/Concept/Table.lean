import Mathlib.Data.List.Forall2
import Mathlib.Data.List.Perm.Basic
import PlanGraph.Concept.Table
import PlanGraph.Proofs.Concept.Mentions

set_option autoImplicit false

/-! # What the concept table contains

`RowOf` says what the row of a concept holds, in terms of the lines that mention the concept and of
the clusters alone. The table has exactly one such row for each concept that is mentioned
(`build_rowOf`). The mention whose comments are used is the heaviest one; in the table itself a
mention weighs as much as it has comments, and other weights are kept general for tables of plans
that differ in their comments only. -/

namespace PlanGraph

namespace Mention

/-- The comments of the earliest line of greatest weight. -/
def heaviestComments (weight : Line → Nat) (ls : List Line) : List Text :=
  ((ls.argmax weight).map (·.comments)).getD []

/-- The records of the clusters' lines, each with the comments of its earliest line of greatest
    weight. -/
def collectBy (weight : Line → Nat) (clusters : List Cluster) : List Mention :=
  (collect clusters).map fun m =>
    { m with comments := heaviestComments weight (linesOf m.key (lines clusters)) }

theorem collectBy_length (clusters : List Cluster) :
    collectBy (·.comments.length) clusters = collect clusters := by
  have hself : ∀ m ∈ collect clusters,
      { m with comments := heaviestComments (·.comments.length) (linesOf m.key (lines clusters)) } =
        m := by
    intro m hm
    obtain ⟨more, hlines, hgather⟩ := (gathered_collect clusters).each m hm
    obtain ⟨l, hl, hcomments⟩ := comments_gather m.line more
    rw [heaviestComments, hlines, Option.mem_def.1 hl, Option.map_some, Option.getD_some,
      ← hcomments, ← hgather]
  rw [collectBy, List.map_congr_left hself, List.map_id']

end Mention

namespace ConceptTable

/-! ## What a row holds -/

/-- The value that comments and the first mention give to a thing: a file, a literal note for it, or
    the value in its own text. -/
def valueOf (first : Line) (comments : List Text) : Option Literal :=
  (((Notes.ofComments comments).get? "file_location").map fun path =>
    Literal.one (Reference.fileLocation path)).or <|
  (((LiteralNote.ofComments comments).find? fun note =>
    note.name.isEmpty || note.name == first.name).map (·.value)).or <|
  (Naming.value? first.stripped).map fun v => Literal.one (Literal.sign v)

/-- The axes that comments give to a thing. -/
def axesOf (settings : Settings) (comments : List Text) : List Text :=
  ((((Notes.ofComments comments).get? "axis").map (Axes.ofText settings.noneAxis)).getD
    (.absent settings.noneAxis)).flatten

/-- The columns of a thing that come from comments. -/
structure ThingNotes (settings : Settings) (first : Line) (comments : List Text)
    (row : ConceptRow) : Prop where
  isInvariant : row.isInvariant = (Notes.ofComments comments).flag "invariant"
  referenceData : row.referenceData = valueOf first comments
  axisName : row.axisName = (axesOf settings comments).head?.getD []
  referenceAxisNames : row.referenceAxisNames = axesOf settings comments
  elementType : row.elementType = (Notes.ofComments comments).get? "element_type"

/-- Whether a line is an operation in words. -/
def inWords (l : Line) : Bool := l.kind == .imperative || l.kind == .judgement

/-- What the elements of an operation are called. -/
def operationElement (first : Line) : Text := if inWords first then "paradigm" else "operator"

/-- The input file that comments give to an operation; only one in words has any. -/
def inputOf (first : Line) (comments : List Text) : Option Text :=
  if inWords first then
    ((Notes.ofComments comments).get? "v_input_provision").filter (!·.isEmpty)
  else none

/-- The same columns of an operation: its input file is referred to under some running number, and
    everything else is fixed. -/
structure OperationNotes (settings : Settings) (first : Line) (comments : List Text)
    (row : ConceptRow) : Prop where
  isInvariant : row.isInvariant = true
  referenceData : ∃ id, row.referenceData = some (.one
    (((inputOf first comments).map (Reference.sign · id)).getD settings.dummyReference))
  axisName : row.axisName = settings.noneAxis
  referenceAxisNames : row.referenceAxisNames = [settings.noneAxis]
  elementType : row.elementType = some (operationElement first)

/-- What the row of the concept `key` holds. -/
structure RowOf (settings : Settings) (clusters : List Cluster) (weight : Line → Nat) (key : Text)
    (row : ConceptRow) : Prop where
  /-- The positions are those of all mentions, ascending and without repetition. -/
  mem_positions : ∀ p, p ∈ row.positions ↔
    ∃ l ∈ Mention.linesOf key (Mention.lines clusters), l.position = p
  increasing : row.positions.Pairwise Position.lt
  isFinal_iff : row.isFinal = true ↔
    ∃ l ∈ Mention.linesOf key (Mention.lines clusters), l.role = some .rootFinal
  /-- A concept is given exactly if no cluster infers it. -/
  isGround_iff : row.isGround = true ↔
    ¬ ∃ c ∈ clusters, ∃ parent, c.parent = some parent ∧ parent.conceptKey = key ∧
      ∃ r, parent.role = some r ∧ r.isDerived = true
  /-- Name and kind come from the first mention, the rest from the comments of the heaviest. -/
  columns : ∃ first richest,
    (Mention.linesOf key (Mention.lines clusters)).head? = some first ∧
    richest ∈ (Mention.linesOf key (Mention.lines clusters)).argmax weight ∧
    row.name = first.reference ∧ row.kind = first.classification.kindMarker ∧
    row.naturalName =
      (if first.kind.isFunctionLike then Naming.operation first.stripped else first.name) ∧
    (first.kind.isFunctionLike = false → ThingNotes settings first richest.comments row) ∧
    (first.kind.isFunctionLike = true → OperationNotes settings first richest.comments row)

/-! ## The row of one record -/

theorem mem_produced_iff {clusters : List Cluster} {key : Text} :
    key ∈ Mention.produced clusters ↔
      ∃ c ∈ clusters, ∃ parent, c.parent = some parent ∧ parent.conceptKey = key ∧
        ∃ r, parent.role = some r ∧ r.isDerived = true := by
  simp only [Mention.produced, List.mem_filterMap]
  constructor
  · rintro ⟨parent, ⟨c, hc, hparent⟩, hkey⟩
    cases hrole : parent.role with
    | none => simp [hrole] at hkey
    | some r =>
        cases hd : r.isDerived with
        | false => simp [hrole, hd] at hkey
        | true =>
            refine ⟨c, hc, parent, hparent, ?_, r, hrole, hd⟩
            simpa [hrole, hd] using hkey
  · rintro ⟨c, hc, parent, hparent, rfl, r, hrole, hd⟩
    exact ⟨parent, ⟨c, hc, hparent⟩, by simp [hrole, hd]⟩

theorem thingNotes_thingRow (settings : Settings) (isProduced : Bool) (m : Mention) :
    ThingNotes settings m.line m.comments (thingRow settings isProduced m) where
  isInvariant := rfl
  referenceData := by
    simp only [thingRow, givenValue?, valueOf, Option.orElse_eq_or]
  axisName := rfl
  referenceAxisNames := rfl
  elementType := rfl

theorem operationNotes_row (settings : Settings) (produced : List Text) (id : UInt32) (m : Mention)
    (h : m.line.kind.isFunctionLike = true) :
    OperationNotes settings m.line m.comments (row settings produced id m).1 := by
  have hinput : inputFile? m = inputOf m.line m.comments := rfl
  rw [row, if_pos h, hinput]
  cases hpath : inputOf m.line m.comments with
  | none => exact ⟨rfl, ⟨id, by rw [hpath]; rfl⟩, rfl, rfl, rfl⟩
  | some path => exact ⟨rfl, ⟨id, by rw [hpath]; rfl⟩, rfl, rfl, rfl⟩

/-- Whatever its kind, the row of a record has the record's positions and flags, and the names of
    its first line. -/
theorem row_fields (settings : Settings) (produced : List Text) (id : UInt32) (m : Mention) :
    (row settings produced id m).1.positions = m.positions ∧
    (row settings produced id m).1.isFinal = m.isFinal ∧
    (row settings produced id m).1.isGround = !produced.contains m.key ∧
    (row settings produced id m).1.name = m.line.reference ∧
    (row settings produced id m).1.kind = m.line.classification.kindMarker ∧
    (row settings produced id m).1.naturalName =
      (if m.line.kind.isFunctionLike then Naming.operation m.line.stripped else m.line.name) := by
  rw [row]
  by_cases h : m.line.kind.isFunctionLike = true
  · simp only [h, if_true, Line.reference]
    cases inputFile? m <;> exact ⟨rfl, rfl, rfl, rfl, rfl, rfl⟩
  · simp only [h, Line.reference]
    exact ⟨rfl, rfl, rfl, rfl, rfl, rfl⟩

theorem rowOf_row (settings : Settings) (clusters : List Cluster) (weight : Line → Nat)
    (id : UInt32) {m : Mention} (hm : m ∈ Mention.collectBy weight clusters) :
    RowOf settings clusters weight m.key (row settings (Mention.produced clusters) id m).1 := by
  obtain ⟨plain, hplain, rfl⟩ := List.mem_map.1 hm
  obtain ⟨more, hlines, hgather⟩ := (Mention.gathered_collect clusters).each plain hplain
  obtain ⟨richest, hrichest⟩ : ∃ l, l ∈ (plain.line :: more).argmax weight := by
    cases h : (plain.line :: more).argmax weight with
    | none => exact absurd (List.argmax_eq_none.1 h) (by simp)
    | some l => exact ⟨l, rfl⟩
  generalize hrec : ({ plain with comments := _ } : Mention) = m
  have hline : m.line = plain.line := by rw [← hrec]
  have hcomments : m.comments = richest.comments := by
    rw [← hrec, Mention.heaviestComments, hlines, Option.mem_def.1 hrichest]
    rfl
  have hkey : m.key = plain.key := by rw [← hrec]; rfl
  obtain ⟨hpositions, hfinal, hground, hname, hkind, hnatural⟩ :=
    row_fields settings (Mention.produced clusters) id m
  refine ⟨?_, ?_, ?_, ?_, plain.line, richest, ?_, ?_, ?_, ?_, ?_, ?_, ?_⟩
  · intro p
    rw [hkey, hpositions, hlines, ← hrec, ← Mention.mem_positions_gather, ← hgather]
  · rw [hpositions, ← hrec, hgather]
    exact Mention.increasing_positions_gather _ _
  · rw [hkey, hfinal, hlines, ← hrec]
    show plain.isFinal = true ↔ _
    rw [hgather, Mention.isFinal_gather, List.any_eq_true, Mention.line_gather]
    simp [Line.hasRole]
  · rw [hground, ← mem_produced_iff]
    simp
  · rw [hkey, hlines]
    rfl
  · rw [hkey, hlines]
    exact hrichest
  · rw [hname, hline]
  · rw [hkind, hline]
  · rw [hnatural, hline]
  · intro hthing
    have hrow : (row settings (Mention.produced clusters) id m).1 =
        thingRow settings ((Mention.produced clusters).contains m.key) m := by
      rw [row, hline, hthing]
      rfl
    rw [hrow, ← hline, ← hcomments]
    exact thingNotes_thingRow _ _ _
  · intro hoperation
    rw [← hline, ← hcomments]
    exact operationNotes_row _ _ _ _ (by rw [hline]; exact hoperation)

/-! ## The whole table -/

/-- The table in which the comments of a concept are those of its earliest line of greatest
    weight. -/
def buildBy (weight : Line → Nat) (settings : Settings) (nextId : UInt32)
    (clusters : List Cluster) : List ConceptRow :=
  sorted (rows settings (Mention.produced clusters) nextId (Mention.collectBy weight clusters)).1

theorem build_eq_buildBy (settings : Settings) (nextId : UInt32) (clusters : List Cluster) :
    (build settings nextId clusters).1 =
      buildBy (·.comments.length) settings nextId clusters := by
  rw [buildBy, Mention.collectBy_length]
  rfl

/-- What every record's row satisfies, whatever its running number, all rows satisfy. -/
theorem forall₂_rows {R : Mention → ConceptRow → Prop} (settings : Settings)
    (produced : List Text) {ms : List Mention}
    (h : ∀ m ∈ ms, ∀ id, R m (row settings produced id m).1) (nextId : UInt32) :
    List.Forall₂ R ms (rows settings produced nextId ms).1 := by
  induction ms generalizing nextId with
  | nil => exact List.Forall₂.nil
  | cons m ms ih =>
      rw [List.forall_mem_cons] at h
      exact List.Forall₂.cons (h.1 nextId) (ih h.2 _)

/-- The rows in the order of the records. -/
theorem forall₂_rowOf_rows (weight : Line → Nat) (settings : Settings) (nextId : UInt32)
    (clusters : List Cluster) :
    List.Forall₂ (RowOf settings clusters weight) ((Mention.collect clusters).map (·.key))
      (rows settings (Mention.produced clusters) nextId (Mention.collectBy weight clusters)).1 := by
  have hkeys : (Mention.collectBy weight clusters).map (·.key) =
      (Mention.collect clusters).map (·.key) := by
    rw [Mention.collectBy, List.map_map]
    rfl
  rw [← hkeys, List.forall₂_map_left_iff]
  refine forall₂_rows settings (Mention.produced clusters) ?_ nextId
  intro m hm id
  exact rowOf_row settings clusters weight id hm

/-- One row for each concept, with what `RowOf` says it holds. -/
theorem forall₂_rowOf_buildBy (weight : Line → Nat) (settings : Settings) (nextId : UInt32)
    (clusters : List Cluster) :
    ∃ keys : List Text, keys.Perm ((Mention.collect clusters).map (·.key)) ∧
      List.Forall₂ (RowOf settings clusters weight) keys
        (buildBy weight settings nextId clusters) := by
  -- Sorting moves the rows; their keys are moved along.
  obtain ⟨keys, hrel, hperm⟩ := List.perm_comp_forall₂ (stableSort_perm _ _)
    (forall₂_rowOf_rows weight settings nextId clusters).flip
  exact ⟨keys, hperm, hrel.flip⟩

/-- **What the concept table contains.** There is exactly one row for each concept that a cluster
    mentions. Its positions are those of all its mentions, in strictly ascending order; it is final
    exactly if one of them is; it is given exactly if no cluster infers it; its names come from its
    first mention and all else from the comments of its earliest mention with the most comments. -/
theorem build_rowOf (settings : Settings) (nextId : UInt32) (clusters : List Cluster) :
    ∃ keys : List Text, keys.Nodup ∧
      (∀ key, key ∈ keys ↔ ∃ l ∈ Mention.lines clusters, l.conceptKey = key) ∧
      List.Forall₂ (RowOf settings clusters (·.comments.length)) keys
        (build settings nextId clusters).1 := by
  have hgathered := Mention.gathered_collect clusters
  obtain ⟨keys, hperm, hrows⟩ :=
    forall₂_rowOf_buildBy (·.comments.length) settings nextId clusters
  refine ⟨keys, hperm.nodup_iff.2 hgathered.nodup, ?_, ?_⟩
  · intro key
    rw [hperm.mem_iff]
    exact hgathered.mem_keys
  · rw [build_eq_buildBy]
    exact hrows

end ConceptTable

end PlanGraph
