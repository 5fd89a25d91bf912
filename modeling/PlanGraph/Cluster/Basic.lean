import PlanGraph.Line.Basic

set_option autoImplicit false

/-! # Clusters

A cluster is one inference of the plan: the parent line that is inferred, the operation that infers
it, the values the operation uses and its other lines. -/

namespace PlanGraph

/-- A parent line with its operation, its values and the rest of its children. -/
structure Cluster where
  position : Position
  /-- The line that is inferred; none for a further operation that stands for itself. -/
  parent : Option Line
  function : Line
  values : List Line
  others : List Line
deriving DecidableEq, Repr, Inhabited

namespace Cluster

/-- The cluster of a further operation: it stands for itself, with no parent and no other lines. -/
def promoted (operation : Line) : Cluster where
  position := operation.position
  parent := none
  function := operation
  values := []
  others := []

/-- The other lines that give context. -/
def contexts (c : Cluster) : List Line := c.others.filter (!·.hasRole .operator)

/-- The other lines that are further operations. -/
def nested (c : Cluster) : List Line := c.others.filter (·.hasRole .operator)

/-- Every line of a cluster, parent first and operation last. -/
def mentions (c : Cluster) : List Line := c.parent.toList ++ c.values ++ c.others ++ [c.function]

/-- The cluster of a parent and its children, if one of them is an operation. The first operation is
    the one that infers the parent. -/
def ofChildren? (parent : Line) (children : List Line) : Option Cluster := do
  let function ← children.find? (·.hasRole .operator)
  return {
    position := parent.position
    parent := some parent
    function := function
    values := children.filter (·.hasRole .value)
    others := (children.filter (!·.hasRole .value)).eraseP (·.hasRole .operator) }

theorem ofChildren?_eq_some_iff {parent : Line} {children : List Line} {c : Cluster} :
    ofChildren? parent children = some c ↔
      ∃ function, children.find? (·.hasRole .operator) = some function ∧
        c = ⟨parent.position, some parent, function, children.filter (·.hasRole .value),
          (children.filter (!·.hasRole .value)).eraseP (·.hasRole .operator)⟩ := by
  simp only [ofChildren?, Option.bind_eq_bind, Option.bind_eq_some_iff, Option.pure_def,
    Option.some.injEq, @eq_comm _ _ c]

end Cluster

end PlanGraph
