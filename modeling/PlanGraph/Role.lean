import PlanGraph.Text.Basic

set_option autoImplicit false

/-! # Roles of plan lines

A line that takes part in a plan starts with a role symbol, which says how its concept relates to
the line above it. -/

namespace PlanGraph

/-- What a line's concept is to its parent. -/
inductive Role where
  /-- The plan's final output. -/
  | rootFinal
  /-- An input supplied from outside. -/
  | rootExternal
  /-- The operation that computes the parent. -/
  | operator
  /-- A value that the operation uses. -/
  | value
  /-- Context that the operation reads. -/
  | context
deriving DecidableEq, Repr, Inhabited

namespace Role

/-- All roles, in the order in which their symbols are tried. -/
def all : List Role := [rootFinal, rootExternal, operator, value, context]

/-- The symbol that opens a line of this role. -/
def symbol : Role → Text
  | rootFinal => ":<:"
  | rootExternal => ":>:"
  | operator => "<="
  | value => "<-"
  | context => "<*"

/-- The name of a role in a dump. -/
def name : Role → Text
  | rootFinal => "root_final"
  | rootExternal => "root_external"
  | operator => "operator"
  | value => "value"
  | context => "context"

/-- Whether a parent of this role is computed by the lines below it. -/
def isDerived : Role → Bool
  | rootFinal | value | context => true
  | rootExternal | operator => false

/-- Whether a concept of this role is supplied from outside. -/
def isExternal (r : Role) : Bool := r == rootExternal

/-- The first role whose symbol opens `t`, with what follows the symbol. -/
def opening? (t : Text) : Option (Role × Text) :=
  all.findSome? fun r => (t.after? r.symbol).map fun rest => (r, rest)

/-- A text without its role symbol, and the role. Blanks before and after the symbol go too. -/
def strip (t : Text) : Option Role × Text :=
  match opening? t.trimStart with
  | some (r, rest) => (some r, rest.trimStart)
  | none => (none, t.trimStart)

/-- Whether a text opens with a role symbol. -/
def opens (t : Text) : Bool := (strip t).1.isSome

theorem opens_eq (t : Text) : opens t = (opening? t.trimStart).isSome := by
  simp only [opens, strip]
  split <;> simp_all

end Role

end PlanGraph
