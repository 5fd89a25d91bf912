import PlanGraph.Numeral
import PlanGraph.Position.Basic
import PlanGraph.Sequence
import PlanGraph.Settings.Basic

set_option autoImplicit false

/-! # Events

A compilation never fails; what it passes over or decides, it reports. Each event has a level, a
message and named fields. -/

namespace PlanGraph

/-- How important an event is. -/
inductive EventLevel where
  | debug
  | info
  | warn
deriving DecidableEq, Repr, Inhabited

/-- The name of a level in a log. -/
def EventLevel.name : EventLevel → Text
  | debug => "debug"
  | info => "info"
  | warn => "warn"

/-- What a compilation reports. -/
inductive Event where
  /-- A line fits no form, or only in part. -/
  | classifiedWithWarnings (lineNumber : Nat) (warnings : List Text)
  /-- A comment before the first role line belongs to nothing. -/
  | droppedComment (lineNumber : Nat)
  /-- A line has children but no operation. -/
  | noFunction (position : Position)
  | builtClusters (lines clusters : Nat)
  /-- A role line is a comment and names no concept. -/
  | skippedComment (position : Position)
  /-- A concept that is inferred was said to be given. -/
  | groundIgnored (concept : Text)
  /-- An operation is itself inferred. -/
  | operatorProduced (operator : Text)
  /-- A tag names no sequence. -/
  | unknownTag (position : Position) (tag : Text)
  /-- An inference is dropped because its sequence cannot be told. -/
  | unresolved (level : UnresolvedLevel) (position : Position) (operator : Text)
  | resolved (position : Position) (sequence : Sequence) (tier : Tier)
  /-- The source of a further operation is no concept, so a placeholder is inferred. -/
  | placeholderUsed (position : Position) (source : Text)
  /-- A specification has no source. -/
  | missingSource (position : Position) (operator : Text)
  /-- An assignment has no marker. -/
  | noMarker (position : Position) (operator : Text)
  /-- Values without a binding are left out of the order. -/
  | unboundValues (position : Position) (excluded : Nat)
  /-- A context line of a loop does not refer to it. -/
  | noLoopReference (position : Position)
  | compiled (concepts inferences : Nat)
deriving DecidableEq, Repr, Inhabited

namespace Event

/-- The level of an event. -/
def level : Event → EventLevel
  | groundIgnored _ | missingSource _ _ | unresolved .warn _ _ => .warn
  | compiled _ _ => .info
  | _ => .debug

/-- The message of an event. -/
def message : Event → Text
  | classifiedWithWarnings _ _ => "classified line with warnings"
  | droppedComment _ => "dropping comment before first role line"
  | noFunction _ => "parent without a function concept does not form a cluster"
  | builtClusters _ _ => "built clusters"
  | skippedComment _ => "skipping comment-shaped role line"
  | groundIgnored _ => "ground marking on a concept produced by an inference is ignored"
  | operatorProduced _ => "operator is also produced by an inference"
  | unknownTag _ _ => "ignoring unknown sequence tag"
  | unresolved _ _ _ => "dropping cluster with unresolved sequence type"
  | resolved _ _ _ => "resolved sequence type"
  | placeholderUsed _ _ => "promoted source has no concept row, using a placeholder"
  | missingSource _ _ => "specification without an assign source"
  | noMarker _ _ => "no assignment marker, treating as identity"
  | unboundValues _ _ => "excluding unbound value concepts"
  | noLoopReference _ => "context concept without a loop source reference"
  | compiled _ _ => "compiled plan"

/-- A list of warnings as a log shows it: each in quotes, all in square brackets. -/
def quotedList (ts : List Text) : Text :=
  '[' :: (List.intercalate ", ".toList (ts.map fun t => '"' :: (t ++ ['"'])) ++ [']'])

/-- The fields of an event. -/
def fields : Event → List (Text × Text)
  | classifiedWithWarnings n warnings =>
    [("line", Numeral.decimal n), ("warnings", quotedList warnings)]
  | droppedComment n => [("line", Numeral.decimal n)]
  | noFunction p => [("position", p.text)]
  | builtClusters lines clusters =>
    [("lines", Numeral.decimal lines), ("clusters", Numeral.decimal clusters)]
  | skippedComment p => [("position", p.text)]
  | groundIgnored concept => [("concept", concept)]
  | operatorProduced operator => [("operator", operator)]
  | unknownTag p tag => [("position", p.text), ("tag", tag)]
  | unresolved _ p operator => [("position", p.text), ("operator", operator)]
  | resolved p sequence tier =>
    [("position", p.text), ("sequence", sequence.name), ("tier", tier.name)]
  | placeholderUsed p source => [("position", p.text), ("source", source)]
  | missingSource p operator => [("position", p.text), ("operator", operator)]
  | noMarker p operator => [("position", p.text), ("operator", operator)]
  | unboundValues p excluded => [("position", p.text), ("excluded", Numeral.decimal excluded)]
  | noLoopReference p => [("position", p.text)]
  | compiled concepts inferences =>
    [("concepts", Numeral.decimal concepts), ("inferences", Numeral.decimal inferences)]

end Event

end PlanGraph
