import PlanGraph.Text.Basic

set_option autoImplicit false

/-! # Settings

What a compilation can be told besides the plan. -/

namespace PlanGraph

/-- How loudly an inference that cannot be resolved is reported. -/
inductive UnresolvedLevel where
  | warn
  | debug
deriving DecidableEq, Repr, Inhabited

/-- The settings of a compilation. -/
structure Settings where
  /-- How many spaces make one level of depth. -/
  indentWidth : Nat := 4
  /-- The axis of a concept that has none. -/
  noneAxis : Text := "_none_axis"
  /-- The value of an operation without an input file. -/
  dummyReference : Text := "%(dummy)"
  /-- The number of the first reference. -/
  firstId : UInt32 := 0
  unresolved : UnresolvedLevel := .warn
  /-- Whether tables are written with line breaks and indentation. -/
  pretty : Bool := true
deriving DecidableEq, Repr, Inhabited

end PlanGraph
