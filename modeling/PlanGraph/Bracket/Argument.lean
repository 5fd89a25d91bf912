import PlanGraph.Bracket.Basic

set_option autoImplicit false

/-! # Arguments behind a marker

An operator's text names its arguments by markers: `%>(…)` a source, `%<(…)` a target. An argument
is the bracket that directly follows its marker. -/

namespace PlanGraph

/-- An argument: the bracket it is written in and its trimmed content. -/
structure Argument where
  bracket : Bracket
  content : Text
deriving DecidableEq, Repr, Inhabited

namespace Argument

/-- The argument at the front of a text, if a closed bracket of an accepted kind stands there. -/
def here? (accepted : List Bracket) (t : Text) : Option Argument := do
  let (b, inner, _) ← Bracket.enclosed? t
  if accepted.contains b then some ⟨b, inner.trim⟩ else none

/-- What directly follows each `marker` in a text, from left to right: its argument, if any. -/
def candidates (accepted : List Bracket) (marker t : Text) : List (Option Argument) :=
  t.allMatches fun place => (place.after? marker).map fun rest => (here? accepted rest, rest)

/-- The first argument behind `marker`, in a bracket of an accepted kind. -/
def findIn? (accepted : List Bracket) (marker t : Text) : Option Argument :=
  (candidates accepted marker t).findSome? id

/-- The first argument behind `marker`, in round or square brackets. -/
def find? (marker t : Text) : Option Argument := findIn? [.round, .square] marker t

end Argument

end PlanGraph
