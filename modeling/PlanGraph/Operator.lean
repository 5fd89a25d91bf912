import PlanGraph.Text.Basic

set_option autoImplicit false

/-! # Operators

The operators that a plan may name by a symbol rather than in words: they assign, group, time or
loop. An operator is recognised by the symbol at the front of its text. -/

namespace PlanGraph

/-- An operator written with a symbol. -/
inductive Operator where
  | identity
  | abstraction
  | specification
  | continuation
  | selection
  | nominalization
  | groupIn
  | groupAcross
  | timingIfNot
  | timingIf
  | timingAfter
  | timingBy
  | looping
deriving DecidableEq, Repr, Inhabited

namespace Operator

/-- All operators, in the order in which their symbols are tried: `@if!` comes before `@if`. -/
def all : List Operator :=
  [identity, abstraction, specification, continuation, selection, nominalization, groupIn,
   groupAcross, timingIfNot, timingIf, timingAfter, timingBy, looping]

/-- The symbol that opens the operator's text. -/
def symbol : Operator → Text
  | identity => "$="
  | abstraction => "$%"
  | specification => "$."
  | continuation => "$+"
  | selection => "$-"
  | nominalization => "$::"
  | groupIn => "&[{}]"
  | groupAcross => "&[#]"
  | timingIfNot => "@if!"
  | timingIf => "@if"
  | timingAfter => "@after"
  | timingBy => "@by"
  | looping => "*every"

/-- The name of an operator in a dump. -/
def name : Operator → Text
  | identity => "identity"
  | abstraction => "abstraction"
  | specification => "specification"
  | continuation => "continuation"
  | selection => "selection"
  | nominalization => "nominalization"
  | groupIn => "group_in"
  | groupAcross => "group_across"
  | timingIfNot => "timing_if_not"
  | timingIf => "timing_if"
  | timingAfter => "timing_after"
  | timingBy => "timing_by"
  | looping => "looping"

/-- The marker of an assignment, for the operators that assign. -/
def assigningMarker? : Operator → Option Text
  | identity => some "="
  | abstraction => some "%"
  | specification => some "."
  | continuation => some "+"
  | selection => some "-"
  | nominalization => some "::"
  | _ => none

/-- The first operator whose symbol opens `t`. -/
def opening? (t : Text) : Option Operator := all.find? fun op => t.startsWith op.symbol

end Operator

end PlanGraph
