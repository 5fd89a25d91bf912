import PlanGraph.Cluster.Basic

set_option autoImplicit false

/-! # Mentions of concepts

A concept is mentioned by every line with its key. What all its mentions say together is gathered
here: the first line that mentions it, the longest list of comments, every position, and whether
some mention makes it the final output or an outside input. -/

namespace PlanGraph

/-- What the mentions of one concept say. -/
structure Mention where
  /-- The first line that mentions the concept. -/
  line : Line
  /-- The longest list of comments, the earliest of that length. -/
  comments : List Text
  positions : List Position
  isFinal : Bool
  isExternal : Bool
deriving DecidableEq, Repr, Inhabited

namespace Mention

/-- The concept that is mentioned. -/
def key (m : Mention) : Text := m.line.conceptKey

/-- Adds one more line that mentions the concept. -/
def absorb (m : Mention) (l : Line) : Mention where
  line := m.line
  comments := if m.comments.length < l.comments.length then l.comments else m.comments
  positions := l.position.insert m.positions
  isFinal := m.isFinal || l.hasRole .rootFinal
  isExternal := m.isExternal || l.hasRole .rootExternal

/-- What the first line that mentions a concept says. -/
def ofLine (l : Line) : Mention := absorb ⟨l, l.comments, [], false, false⟩ l

/-- Adds a line to the mentions of its concept, or as a new concept at the end. -/
def add : List Mention → Line → List Mention
  | [], l => [ofLine l]
  | m :: rest, l =>
    if m.key = l.conceptKey then m.absorb l :: rest else m :: add rest l

/-- The lines of the clusters that name concepts, in order. -/
def lines (clusters : List Cluster) : List Line :=
  (clusters.flatMap (·.mentions)).filter (·.kind != .comment)

/-- The lines of the clusters that name none. -/
def skipped (clusters : List Cluster) : List Line :=
  (clusters.flatMap (·.mentions)).filter (·.kind == .comment)

/-- The concepts of the clusters, in the order of their first mentions. -/
def collect (clusters : List Cluster) : List Mention := (lines clusters).foldl add []

/-- The concepts that the clusters infer. -/
def produced (clusters : List Cluster) : List Text :=
  (clusters.filterMap (·.parent)).filterMap fun parent =>
    if (parent.role.map Role.isDerived).getD false then some parent.conceptKey else none

end Mention

end PlanGraph
