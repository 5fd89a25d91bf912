import PlanGraph.Proofs.Line.Parse
import PlanGraph.Proofs.Tree.Families

set_option autoImplicit false

/-! # Lines at another place

Where a line stands is said by its position and by the number of its line in the text. A relocation
replaces both. What is read from a text knows nothing else of its place: entries are grouped to lines
and lines to clusters in the same way wherever they are (`group_map_entry`, `clusters_map_line`). -/

namespace PlanGraph

/-- Other positions and line numbers. -/
structure Relocation where
  position : Position → Position
  lineNumber : Nat → Nat

namespace Relocation

variable (r : Relocation)

/-- An entry at another place. -/
def entry (e : Entry) : Entry :=
  { e with position := r.position e.position, lineNumber := r.lineNumber e.lineNumber }

/-- A line at another place. -/
def line (l : Line) : Line :=
  { l with position := r.position l.position, lineNumber := r.lineNumber l.lineNumber }

/-- A cluster whose lines are at another place. -/
def cluster (c : Cluster) : Cluster where
  position := r.position c.position
  parent := c.parent.map r.line
  function := r.line c.function
  values := c.values.map r.line
  others := c.others.map r.line

/-- No line numbers any more. -/
def unnumbered : Relocation := ⟨id, fun _ => 0⟩

/-- Lines further down by `n`, and no positions any more. -/
def unplaced (n : Nat) : Relocation := ⟨fun _ => .absent, (· + n)⟩

end Relocation

/-! ## Entries of one line more -/

namespace Entry

theorem ofLines_cons {width : Nat} {raw : Text} (h : ¬ raw.trim.isEmpty = true) (cursor : Cursor)
    (n : Nat) (lines : List Text) :
    ofLines width cursor n (raw :: lines) = (ofLine width cursor n raw).2 ++
      ofLines width (ofLine width cursor n raw).1 (n + 1) lines := by
  rw [ofLines, if_neg h]

/-- Apart from its place, an entry has the depth and the trimmed text of its line, and nothing else. -/
theorem map_entry_ofLine {r r' : Relocation} {width width' n n' : Nat} {cursor cursor' : Cursor}
    {raw raw' : Text} (hdepth : Physical.depth width raw = Physical.depth width' raw')
    (htrim : raw.trim = raw'.trim)
    (hposition : r.position (ofLine width cursor n raw).1.position =
      r'.position (ofLine width' cursor' n' raw').1.position)
    (hnumber : r.lineNumber n = r'.lineNumber n') :
    (ofLine width cursor n raw).2.map r.entry = (ofLine width' cursor' n' raw').2.map r'.entry := by
  unfold ofLine at hposition ⊢
  rw [hdepth, htrim] at hposition ⊢
  by_cases hrole : Role.opens raw'.trim = true
  · simp only [hrole, if_true] at hposition ⊢
    simp only [List.map_cons, List.map_map, Function.comp_def, Relocation.entry, hposition, hnumber]
  · simp only [hrole, Bool.false_eq_true, if_false] at hposition ⊢
    simp only [List.map_cons, List.map_nil, Relocation.entry, hposition, hnumber]

end Entry

namespace Relocation

variable (r : Relocation)

/-! ## Lines from entries -/

theorem group_cons (e : Entry) (es : List Entry) :
    Line.group (e :: es) = match e.form with
      | .main => ([], Line.ofEntry e (Line.group es).1 :: (Line.group es).2)
      | _ => (e :: (Line.group es).1, (Line.group es).2) := rfl

theorem wording?_map_entry (followers : List Entry) :
    Line.wording? (followers.map r.entry) = Line.wording? followers := by
  unfold Line.wording?
  rw [List.find?_map]
  have htest : ((fun e : Entry => e.form == .comment) ∘ r.entry) =
      fun e => e.form == .comment := rfl
  rw [htest]
  cases followers.find? (fun e => e.form == .comment) <;> rfl

theorem ofEntry_entry (main : Entry) (followers : List Entry) :
    Line.ofEntry (r.entry main) (followers.map r.entry) = r.line (Line.ofEntry main followers) := by
  refine Line.ext rfl rfl rfl rfl ?_ (r.wording?_map_entry followers) rfl
  show (followers.map r.entry).map (·.text) = followers.map (·.text)
  rw [List.map_map]
  rfl

theorem group_map_entry (entries : List Entry) :
    Line.group (entries.map r.entry) =
      ((Line.group entries).1.map r.entry, (Line.group entries).2.map r.line) := by
  induction entries with
  | nil => rfl
  | cons e es ih =>
      rw [List.map_cons, group_cons, group_cons, ih]
      have hform : (r.entry e).form = e.form := rfl
      rw [hform]
      cases e.form with
      | main => simp [ofEntry_entry]
      | comment => rfl
      | inlineComment => rfl

/-! ## Clusters from lines -/

theorem ofChildren?_map_line (parent : Line) (kids : List Line) :
    Cluster.ofChildren? (r.line parent) (kids.map r.line) =
      (Cluster.ofChildren? parent kids).map r.cluster := by
  have hrole : ∀ (role : Role) (l : Line), (r.line l).hasRole role = l.hasRole role :=
    fun _ _ => rfl
  unfold Cluster.ofChildren?
  simp only [List.find?_map, List.filter_map, List.eraseP_map, Function.comp_def, hrole]
  cases kids.find? (·.hasRole .operator) <;> rfl

theorem clusters_map_line (lines : List Line) :
    Tree.clusters (lines.map r.line) = (Tree.clusters lines).map r.cluster := by
  refine Tree.clusters_map ?_ r.ofChildren?_map_line lines
  intro l
  rfl

end Relocation

end PlanGraph
