import PlanGraph.Axes
import PlanGraph.Bracket.Argument
import PlanGraph.Cluster.Basic
import PlanGraph.Concept.Token
import PlanGraph.Json.Basic
import PlanGraph.Text.Digit

set_option autoImplicit false

/-! # Loops

A loop runs over the relation in `%>(…)` and collects into `%<(…)`. Its context lines refer back to
it: `<$(base)*>` is the current element, `<$(base)*-1>` the state carried from the turn before. -/

namespace PlanGraph

/-- What a context line is to its loop. -/
inductive LoopRole where
  | currentElement
  | carryState
deriving DecidableEq, Repr, Inhabited

/-- How a loop is carried out. -/
structure Loop where
  base : Option Text
  result : Option Text
  index : Nat
  current : Option Text
  carry : Option Text
  groupBaseAxis : Option Text
deriving DecidableEq, Repr, Inhabited

namespace LoopRole

/-- The role in the end of a loop reference, behind its `)*`. -/
def ofTail? : Text → Option LoopRole
  | '>' :: _ => some currentElement
  | '-' :: rest =>
    if (rest.takeWhile isDecimalDigit).isEmpty then none
    else if Text.startsWith (rest.dropWhile isDecimalDigit) ">" then some carryState
    else none
  | _ => none

/-- The role in the last end of a loop reference on the first line of a text. -/
def ofLastTail? : Text → Option LoopRole
  | [] => none
  | c :: rest =>
    if c = '\n' then none
    else (ofLastTail? rest).orElse fun _ =>
      if c = ')' then (Text.after? rest "*").bind ofTail? else none

/-- What a line is to its loop, by the first loop reference in it. -/
def ofLine? (l : Line) : Option LoopRole :=
  l.content.firstMatch fun place => (place.after? "<$(").bind ofLastTail?

end LoopRole

namespace Loop

/-- The first context line with a role. -/
def context? (role : LoopRole) (c : Cluster) : Option Line :=
  c.contexts.find? fun l => LoopRole.ofLine? l == some role

/-- The context lines that refer to no loop. -/
def strayContexts (c : Cluster) : List Line :=
  c.contexts.filter fun l => (LoopRole.ofLine? l).isNone

/-- The index that `%@(…)` gives; one without it. -/
def indexOf (t : Text) : Nat :=
  ((Argument.findIn? [.round] "%@" t).bind fun arg =>
    Numeral.natural? Numeral.max32 arg.content).getD 1

/-- The axis to group by: the note of the operation, else the axis of the current element, else the
    argument `%:(…)`. -/
def groupBaseAxis? (noneAxis : Text) (c : Cluster) : Option Text :=
  ((c.function.notes.get? "group_base").orElse fun _ =>
    ((context? .currentElement c).bind fun l => l.notes.get? "axis").map fun axis =>
      (Axes.ofText noneAxis axis).primary).orElse fun _ =>
    (Argument.findIn? [.round] "%:" c.function.stripped).map (·.content)

/-- A cluster read as a loop. -/
def ofCluster (noneAxis : Text) (c : Cluster) : Loop :=
  let t := c.function.stripped
  { base := (Argument.findIn? [.round] "%>" t).map fun arg =>
      ConceptKind.relation.reference arg.content
    result := (Argument.find? "%<" t).map fun arg => ConceptKind.object.reference arg.content
    index := indexOf t
    current := (context? .currentElement c).map (·.reference)
    carry := (context? .carryState c).map (·.reference)
    groupBaseAxis := groupBaseAxis? noneAxis c }

end Loop

/-! ## JSON -/

/-- A loop as JSON; what is not given is left out. -/
def Loop.toJson (l : Loop) : Json :=
  .object (Json.optionalField "loop_base" .string l.base ++
    Json.optionalField "loop_result" .string l.result ++
    [("loop_index".toList, .ofNat l.index)] ++
    Json.optionalField "current_element" .string l.current ++
    Json.optionalField "carry_state" .string l.carry ++
    Json.optionalField "group_base_axis" .string l.groupBaseAxis)

end PlanGraph
