import PlanGraph.Cluster.Basic

set_option autoImplicit false

/-! # The tree of lines

Indentation makes a tree of the lines: the parent of a line is the nearest line above it that is
less deep. Each parent with an operation among its children makes a cluster. -/

namespace PlanGraph

namespace Tree

/-- The lines that may still get children, innermost first, each as its index and depth. -/
abbrev Ancestry := List (Nat × Nat)

/-- The lines that are less deep than `depth`. -/
def Ancestry.above (a : Ancestry) (depth : Nat) : Ancestry := a.dropWhile (depth ≤ ·.2)

/-- The parent of each of the lines from `index` on, given their depths. -/
def parentsFrom : Ancestry → Nat → List Nat → List (Option Nat)
  | _, _, [] => []
  | ancestry, index, depth :: depths =>
    let above := ancestry.above depth
    (above.head?.map Prod.fst) :: parentsFrom ((index, depth) :: above) (index + 1) depths

/-- The parent of each line, given the depths of all. -/
def parents (depths : List Nat) : List (Option Nat) := parentsFrom [] 0 depths

/-- The indices in `parents` at which `parent` stands, counted from `index` on. -/
def childrenFrom (parent : Nat) : Nat → List (Option Nat) → List Nat
  | _, [] => []
  | index, p :: ps =>
    if p = some parent then index :: childrenFrom parent (index + 1) ps
    else childrenFrom parent (index + 1) ps

/-- The children of each line, by index. -/
def children (lines : List Line) : List (List Nat) :=
  let ps := parents (lines.map (·.depth))
  (List.range lines.length).map fun i => childrenFrom i 0 ps

/-- Each line with its children. -/
def families (lines : List Line) : List (Line × List Line) :=
  lines.zip ((children lines).map fun indices => indices.filterMap (lines[·]?))

/-- The clusters of the lines of a plan, in the order of their parents. -/
def clusters (lines : List Line) : List Cluster :=
  (families lines).filterMap fun (parent, kids) => Cluster.ofChildren? parent kids

/-- The parents whose children do not make a cluster, because none of them is an operation. -/
def withoutFunction (lines : List Line) : List Line :=
  ((families lines).filter fun (parent, kids) =>
    !kids.isEmpty && (Cluster.ofChildren? parent kids).isNone).map Prod.fst

end Tree

end PlanGraph
