import PlanGraph.Proofs.Recommenting.Concept
import PlanGraph.Proofs.Reference
import PlanGraph.Session

set_option autoImplicit false

/-! # Compilations in one session

What a session hands over from one compilation to the next is the number of the next reference to a
file. One compilation numbers the input files of its plan consecutively, in the order in which the
concepts are mentioned first (`signs_next_perm`), and leaves the number behind the last one
(`nextId_next`). So the signs of all compilations of a session are numbered consecutively, and they
are different. Nothing else depends on where the numbers start: each compilation gives what it would
give by itself, but for the numbers in these signs (`compileAll_sameButNumbers`). -/

namespace PlanGraph

/-! ## Concepts beside their rows -/

namespace Mention

/-- The key that the row of a concept is sorted by. -/
def sortKey (m : Mention) : SortKey := .ofPosition? m.positions.head?

/-- The concepts of the clusters, in the order of their rows in the table. -/
def inTableOrder (clusters : List Cluster) : List Mention :=
  stableSort (fun m m' => m.sortKey.le m'.sortKey) (collect clusters)

end Mention

namespace ConceptTable

/-- The sign of the concept's input file, as its row has it. -/
def inputSign? (m : Mention) (r : ConceptRow) : Option Text :=
  match inputFile? m, r.referenceData with
  | some _, some (.one sign) => some sign
  | _, _ => none

/-- The signs of input files in the rows of some concepts. -/
def inputSigns (ms : List Mention) (rs : List ConceptRow) : List Text :=
  (ms.zip rs).filterMap fun p => inputSign? p.1 p.2

theorem inputSigns_cons (m : Mention) (r : ConceptRow) (ms : List Mention) (rs : List ConceptRow) :
    inputSigns (m :: ms) (r :: rs) = (inputSign? m r).toList ++ inputSigns ms rs := by
  unfold inputSigns
  rw [List.zip_cons_cons, List.filterMap_cons]
  cases inputSign? m r <;> rfl

/-- Two rows of the concept `m` that are equal but for the number in the sign of its input file. -/
structure SameButNumber (m : Mention) (a b : ConceptRow) : Prop where
  name : a.name = m.line.reference
  positions : a.positions = m.positions
  same : match inputFile? m with
    | some path => ∃ id id', a.referenceData = some (.one (Reference.sign path id)) ∧
        b = { a with referenceData := some (.one (Reference.sign path id')) }
    | none => b = a

section Rows

variable (settings : Settings) (produced : List Text)

theorem row_of_inputFile? {m : Mention} {path : Text} (h : inputFile? m = some path)
    (id : UInt32) :
    row settings produced id m =
      (operationRow settings (produced.contains m.key) (Reference.sign path id) m, id + 1) := by
  have hfunction : m.line.kind.isFunctionLike = true := by
    unfold inputFile? isParadigm at h
    cases hkind : m.line.kind <;> simp [hkind] at h <;> rfl
  rw [row, if_pos hfunction, h]

theorem row_of_no_inputFile? {m : Mention} (h : inputFile? m = none) (id id' : UInt32) :
    row settings produced id m = ((row settings produced id' m).1, id) := by
  unfold row
  rw [h]
  split <;> rfl

theorem inputSign?_row (id : UInt32) (m : Mention) :
    (inputSign? m (row settings produced id m).1).toList =
        Reference.signsFrom id (inputFile? m).toList ∧
      (row settings produced id m).2 = id + UInt32.ofNat (inputFile? m).toList.length := by
  unfold inputSign?
  cases h : inputFile? m with
  | none =>
      rw [row_of_no_inputFile? settings produced h id id]
      exact ⟨rfl, (UInt32.add_zero id).symm⟩
  | some path =>
      rw [row_of_inputFile? settings produced h]
      exact ⟨(Reference.signsFrom_cons id path []).symm, rfl⟩

theorem sameButNumber_row (id id' : UInt32) (m : Mention) :
    SameButNumber m (row settings produced id m).1 (row settings produced id' m).1 := by
  obtain ⟨hpositions, -, -, hname, -, -⟩ := row_fields settings produced id m
  refine ⟨hname, hpositions, ?_⟩
  cases h : inputFile? m with
  | none => rw [row_of_no_inputFile? settings produced h id' id]
  | some path =>
      rw [row_of_inputFile? settings produced h, row_of_inputFile? settings produced h]
      exact ⟨id, id', rfl, rfl⟩

/-- The rows number the input files consecutively. -/
theorem inputSigns_rows (id : UInt32) (ms : List Mention) :
    inputSigns ms (rows settings produced id ms).1 =
        Reference.signsFrom id (ms.filterMap inputFile?) ∧
      (rows settings produced id ms).2 =
        id + UInt32.ofNat (ms.filterMap inputFile?).length := by
  induction ms generalizing id with
  | nil => exact ⟨rfl, (UInt32.add_zero id).symm⟩
  | cons m ms ih =>
      obtain ⟨hsign, hnext⟩ := inputSign?_row settings produced id m
      obtain ⟨hsigns, hlast⟩ := ih (row settings produced id m).2
      have hfiles : (m :: ms).filterMap inputFile? =
          (inputFile? m).toList ++ ms.filterMap inputFile? := by
        simp only [List.filterMap_eq_flatMap_toList, List.flatMap_cons]
      rw [hfiles, Reference.signsFrom_append, ← hnext, ← hsign, ← hsigns, List.length_append,
        UInt32.ofNat_add, ← UInt32.add_assoc, ← hnext, ← hlast]
      exact ⟨inputSigns_cons m _ ms _, rfl⟩

end Rows

section Table

variable (settings : Settings) (clusters : List Cluster)

/-- Whether a row is that of a concept, under some number. -/
def IsRow (m : Mention) (r : ConceptRow) : Prop :=
  ∃ id, r = (row settings (Mention.produced clusters) id m).1

theorem IsRow.sortKey {m : Mention} {r : ConceptRow} (h : IsRow settings clusters m r) :
    m.sortKey = r.sortKey := by
  obtain ⟨id, rfl⟩ := h
  unfold Mention.sortKey ConceptRow.sortKey
  rw [(row_fields settings _ id m).1]

theorem IsRow.le_eq (a : Mention) (b : ConceptRow) (c : Mention) (d : ConceptRow)
    (hab : IsRow settings clusters a b) (hcd : IsRow settings clusters c d) :
    a.sortKey.le c.sortKey = b.sortKey.le d.sortKey := by
  rw [hab.sortKey, hcd.sortKey]

theorem forall₂_isRow_rows (id : UInt32) :
    List.Forall₂ (IsRow settings clusters) (Mention.collect clusters)
      (rows settings (Mention.produced clusters) id (Mention.collect clusters)).1 :=
  forall₂_rows settings _ (fun _ _ id => ⟨id, rfl⟩) id

theorem forall₂_isRow_build (id : UInt32) :
    List.Forall₂ (IsRow settings clusters) (Mention.inTableOrder clusters)
      (build settings id clusters).1 :=
  forall₂_stableSort (IsRow.le_eq settings clusters) (forall₂_isRow_rows settings clusters id)

/-- The table has the signs of all input files, numbered in the order of first mention. -/
theorem inputSigns_build_perm (id : UInt32) :
    (inputSigns (Mention.inTableOrder clusters) (build settings id clusters).1).Perm
      (Reference.signsFrom id ((Mention.collect clusters).filterMap inputFile?)) := by
  rw [← (inputSigns_rows settings (Mention.produced clusters) id _).1]
  have hzip := zip_stableSort (IsRow.le_eq settings clusters)
    (forall₂_isRow_rows settings clusters id)
  unfold inputSigns
  show List.Perm (((Mention.inTableOrder clusters).zip (sorted _)).filterMap _) _
  rw [Mention.inTableOrder, sorted, hzip]
  exact (stableSort_perm _ _).filterMap _

theorem forall₂_sameButNumber {ms : List Mention} {rs rs' : List ConceptRow}
    (h : List.Forall₂ (IsRow settings clusters) ms rs)
    (h' : List.Forall₂ (IsRow settings clusters) ms rs') :
    List.Forall₂ (fun m rows => SameButNumber m rows.1 rows.2) ms (rs.zip rs') := by
  induction h generalizing rs' with
  | nil => exact .nil
  | @cons m r ms rs hrow _ ih =>
      rcases h' with _ | ⟨hrow', hrest'⟩
      obtain ⟨id, rfl⟩ := hrow
      obtain ⟨id', rfl⟩ := hrow'
      exact .cons (sameButNumber_row settings _ id id' m) (ih hrest')

end Table

end ConceptTable

/-! ## One compilation -/

namespace CompiledPlan

/-- The signs of input files that a plan has been given. -/
def signs (plan : CompiledPlan) : List Text :=
  ConceptTable.inputSigns (Mention.inTableOrder plan.clusters) plan.concepts

/-- The input files of a plan text, in the order of first mention. -/
def inputFiles (settings : Settings) (source : Text) : List Text :=
  (Mention.collect (Tree.clusters (Line.parse settings.indentWidth source))).filterMap
    ConceptTable.inputFile?

/-- Two plans that are equal but for the numbers in the signs of input files. -/
structure SameButNumbers (plan other : CompiledPlan) : Prop where
  clusters : plan.clusters = other.clusters
  inferences : plan.inferences = other.inferences
  length : plan.concepts.length = other.concepts.length
  concepts : List.Forall₂ (fun m rows => ConceptTable.SameButNumber m rows.1 rows.2)
    (Mention.inTableOrder plan.clusters) (plan.concepts.zip other.concepts)

variable (settings : Settings)

theorem ofClusters_eq (id : UInt32) (clusters : List Cluster) :
    ofClusters settings id clusters =
      let concepts := (ConceptTable.build settings id clusters).1
      (⟨clusters, concepts, InferenceTable.build settings concepts clusters⟩,
        (ConceptTable.build settings id clusters).2) := rfl

/-- A compilation numbers the input files consecutively. -/
theorem signs_next_perm (id : UInt32) (source : Text) :
    (next settings id source).1.signs.Perm
      (Reference.signsFrom id (inputFiles settings source)) := by
  unfold next inputFiles
  rw [ofClusters_eq]
  exact ConceptTable.inputSigns_build_perm settings _ id

theorem nextId_next (id : UInt32) (source : Text) :
    (next settings id source).2 = id + UInt32.ofNat (inputFiles settings source).length := by
  unfold next inputFiles
  rw [ofClusters_eq]
  exact (ConceptTable.inputSigns_rows settings _ id _).2

/-- Where the numbers start matters for nothing else. -/
theorem sameButNumbers_next (id id' : UInt32) (source : Text) :
    (next settings id source).1.SameButNumbers (next settings id' source).1 := by
  unfold next
  rw [ofClusters_eq, ofClusters_eq]
  generalize Tree.clusters (Line.parse settings.indentWidth source) = clusters
  have halike : List.Forall₂ ConceptRow.Alike (ConceptTable.build settings id clusters).1
      (ConceptTable.build settings id' clusters).1 := by
    rw [ConceptTable.build_eq_buildBy, ConceptTable.build_eq_buildBy]
    exact (ConceptTable.forall₂_alike_buildBy settings id id' clusters _ _).imp fun _ _ h => h.1
  refine ⟨rfl, Recommenting.build_congr settings halike clusters, halike.length_eq, ?_⟩
  exact ConceptTable.forall₂_sameButNumber settings clusters
    (ConceptTable.forall₂_isRow_build settings clusters id)
    (ConceptTable.forall₂_isRow_build settings clusters id')

end CompiledPlan

/-! ## A whole session -/

namespace Session

/-- Compiles some texts one after the other. -/
def compileAll (s : Session) : List Text → Session × List CompiledPlan
  | [] => (s, [])
  | source :: sources =>
    let (next, plan) := (s.set source).compile
    let (last, plans) := next.compileAll sources
    (last, plan :: plans)

theorem compileAll_cons (s : Session) (source : Text) (sources : List Text) :
    s.compileAll (source :: sources) =
      let compiled := CompiledPlan.next s.settings s.nextId source
      let rest := compileAll ⟨s.settings, source, compiled.2⟩ sources
      (rest.1, compiled.1 :: rest.2) := rfl

/-- The input files of all texts are numbered consecutively. -/
theorem signs_compileAll_perm (s : Session) (sources : List Text) :
    ((s.compileAll sources).2.flatMap CompiledPlan.signs).Perm
        (Reference.signsFrom s.nextId (sources.flatMap (CompiledPlan.inputFiles s.settings))) ∧
      (s.compileAll sources).1.nextId = s.nextId +
        UInt32.ofNat (sources.flatMap (CompiledPlan.inputFiles s.settings)).length := by
  induction sources generalizing s with
  | nil => exact ⟨List.Perm.refl _, (UInt32.add_zero _).symm⟩
  | cons source sources ih =>
      have hsigns := CompiledPlan.signs_next_perm s.settings s.nextId source
      have hnext := CompiledPlan.nextId_next s.settings s.nextId source
      rw [compileAll_cons]
      generalize CompiledPlan.next s.settings s.nextId source = compiled at hsigns hnext ⊢
      obtain ⟨hrest, hlast⟩ := ih ⟨s.settings, source, compiled.2⟩
      dsimp only at hrest hlast ⊢
      rw [List.flatMap_cons, List.flatMap_cons, Reference.signsFrom_append, List.length_append,
        UInt32.ofNat_add, ← UInt32.add_assoc, ← hnext]
      exact ⟨hsigns.append hrest, hlast⟩

theorem forall₂_compileAll (s : Session) (sources : List Text) :
    List.Forall₂
      (fun source plan => plan.SameButNumbers (CompiledPlan.ofText s.settings source))
      sources (s.compileAll sources).2 := by
  induction sources generalizing s with
  | nil => exact .nil
  | cons source sources ih =>
      rw [compileAll_cons]
      refine .cons ?_ (ih ⟨s.settings, source, _⟩)
      exact CompiledPlan.sameButNumbers_next s.settings s.nextId s.settings.firstId source

/-- **A session keeps its references apart and changes nothing else.** However many texts are
    compiled one after the other and whatever number they start from, all signs of input files are
    different, unless there are more of them than there are numbers. Each plan is what its text
    gives by itself, but for the numbers in these signs. -/
theorem compileAll_sameButNumbers (s : Session) (sources : List Text) :
    let plans := (s.compileAll sources).2
    let signs := plans.flatMap CompiledPlan.signs
    (signs.length ≤ UInt32.size → signs.Nodup) ∧
      (s.compileAll sources).1.nextId = s.nextId + UInt32.ofNat signs.length ∧
      List.Forall₂
        (fun source plan => plan.SameButNumbers (CompiledPlan.ofText s.settings source))
        sources plans := by
  intro plans signs
  obtain ⟨hperm, hlast⟩ := signs_compileAll_perm s sources
  have hlength := hperm.length_eq
  rw [Reference.signsFrom, List.length_mapIdx] at hlength
  refine ⟨?_, ?_, forall₂_compileAll s sources⟩
  · intro hbound
    rw [hperm.nodup_iff]
    exact Reference.nodup_signsFrom s.nextId (hlength ▸ hbound)
  · rw [hlast, ← hlength]

/-- A plan with two operations in words that have the same input file. -/
def sharedInput : Text :=
  ":<: {x}\n    <= ::(do) | %{v_input_provision}: p.md\n" ++
    "    <- {y}\n        <= ::(make) | %{v_input_provision}: p.md\n"

/-- Compiled twice, its signs are numbered past the last number there is. -/
theorem compileAll_sameButNumbers_sharedInput :
    let signs := ((Session.mk {} [] 0xFFFFFFFE).compileAll [sharedInput, sharedInput]).2.flatMap
      CompiledPlan.signs
    signs = ["%{prompt_location}fffffffe(p.md)", "%{prompt_location}ffffffff(p.md)",
        "%{prompt_location}000(p.md)", "%{prompt_location}001(p.md)"] ∧
      signs.Nodup := by
  intro signs
  have hsigns : signs = ["%{prompt_location}fffffffe(p.md)",
      "%{prompt_location}ffffffff(p.md)", "%{prompt_location}000(p.md)",
      "%{prompt_location}001(p.md)"] := by decide +kernel
  have hbound : signs.length ≤ UInt32.size := by
    rw [hsigns]
    decide
  exact ⟨hsigns, (compileAll_sameButNumbers _ [sharedInput, sharedInput]).1 hbound⟩

end Session

end PlanGraph
