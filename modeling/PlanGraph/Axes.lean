import PlanGraph.Bracket.Items
import PlanGraph.Note

set_option autoImplicit false

/-! # Axes

A note lists the axes of a concept: a single name, a flat list, or a list of lists with one group
for each target. The lists are never empty: whatever cannot be read stands for the one axis that
means "none". -/

namespace PlanGraph

/-- The axes of a concept. -/
inductive Axes where
  | flat (axes : List Text)
  | nested (groups : List (List Text))
deriving DecidableEq, Repr, Inhabited

namespace Axes

/-- No axes: the one name that says so. -/
def absent (noneAxis : Text) : Axes := flat [noneAxis]

/-- All axis names in order. -/
def flatten : Axes → List Text
  | flat axes => axes
  | nested groups => groups.flatten

/-- The first axis name. -/
def primary (a : Axes) : Text := a.flatten.head?.getD []

/-- One group for each of `targets` targets. A flat list serves every target; groups are handed out
    in order, and "none" where there are too few. -/
def perTarget (targets : Nat) (noneAxis : Text) : Axes → List (List Text)
  | flat axes => List.replicate targets axes
  | nested groups =>
    groups.take targets ++ List.replicate (targets - groups.length) [noneAxis]

/-- The names in the text of a list, without quotes and without empty ones. -/
def names (t : Text) : List Text :=
  ((Items.split ',' t).map fun item => (Note.unquote item).trim).filter (!·.isEmpty)

/-- A group that has no names holds the axis "none". -/
def orNone (noneAxis : Text) (group : List Text) : List Text :=
  if group.isEmpty then [noneAxis] else group

/-- The group that one item of a list of lists spells; none for a bracket around only a part of
    it. -/
def group? (noneAxis item : Text) : Option (List Text) :=
  match Bracket.square.strip? item with
  | some inner => some (orNone noneAxis (names inner))
  | none => if item.startsWith "[" then none else some (orNone noneAxis (names item))

/-- The axes in a bracketed list. -/
def ofList (noneAxis inner : Text) : Axes :=
  let items := Items.split ',' inner
  if items.any (Text.startsWith · "[") then
    match items.mapM (group? noneAxis) with
    | some groups => nested groups
    | none => absent noneAxis
  else flat (orNone noneAxis (names inner))

/-- The axes that the text of a note spells. -/
def ofText (noneAxis t : Text) : Axes :=
  if t.trim.startsWith "[" then
    match Bracket.square.strip? t.trim with
    | some inner => ofList noneAxis inner
    | none => absent noneAxis
  else
    let name := (Note.unquote t.trim).trim
    if name.isEmpty then absent noneAxis else flat [name]

end Axes

end PlanGraph
