import PlanGraph.Line.Basic

set_option autoImplicit false

/-! # Sequences

Each inference runs one of six sequences, which is read off its operation: an explicit tag comes
first, then the text of the operation, then the operator that the line was classified as, and last
an operation in words. An operation that none of these tells is unresolved. -/

namespace PlanGraph

/-- The sequences an inference can run. -/
inductive Sequence where
  | imperative
  | judgement
  | assigning
  | grouping
  | timing
  | looping
deriving DecidableEq, Repr, Inhabited

/-- What told the sequence of an operation. -/
inductive Tier where
  | inlineTag
  | textHeuristic
  | operatorKind
  | doubleColon
deriving DecidableEq, Repr, Inhabited

/-- The name of a tier in a log. -/
def Tier.name : Tier → Text
  | inlineTag => "InlineTag"
  | textHeuristic => "TextHeuristic"
  | operatorKind => "OperatorKind"
  | doubleColon => "DoubleColon"

/-- The sequence that an operator runs. -/
def Operator.sequence : Operator → Sequence
  | identity | abstraction | specification | continuation | selection | nominalization =>
    .assigning
  | groupIn | groupAcross => .grouping
  | timingIfNot | timingIf | timingAfter | timingBy => .timing
  | looping => .looping

namespace Sequence

/-- All sequences. -/
def all : List Sequence := [imperative, judgement, assigning, grouping, timing, looping]

/-- The name of a sequence in a plan and in the tables. -/
def name : Sequence → Text
  | imperative => "imperative"
  | judgement => "judgement"
  | assigning => "assigning"
  | grouping => "grouping"
  | timing => "timing"
  | looping => "looping"

/-- The sequence that the value of a tag names, in any case. -/
def ofTag? (value : Text) : Option Sequence := all.find? (·.name == value.trim.lower)

/-! ## The text of an operation -/

/-- Whether a text groups anywhere. -/
def looksGrouping (t : Text) : Bool :=
  t.contains Operator.groupIn.symbol || t.contains Operator.groupAcross.symbol

/-- Whether a text has both marks of a loop. -/
def looksLooping (t : Text) : Bool := t.contains Operator.looping.symbol && t.contains "%>("

/-- Whether a text opens as an assignment. -/
def looksAssigning (t : Text) : Bool :=
  [Operator.identity, .abstraction, .specification, .continuation, .selection,
    .nominalization].any (t.startsWith ·.symbol)

/-- Whether a text opens with a time. -/
def looksTiming (t : Text) : Bool :=
  [Operator.timingIf, .timingAfter, .timingBy].any (t.startsWith ·.symbol)

/-- The marks of a text, in the order in which they are tried, each with its sequence. -/
def heuristics : List ((Text → Bool) × Sequence) :=
  [(Classification.isJudgement, judgement), (looksGrouping, grouping), (looksLooping, looping),
   (looksAssigning, assigning), (looksTiming, timing)]

/-- The sequence that the text of an operation tells. -/
def ofText? (t : Text) : Option Sequence :=
  (heuristics.find? fun (holds, _) => holds t).map Prod.snd

/-! ## Resolution -/

/-- The value of the tag that names a sequence. -/
def tag? (operation : Line) : Option Text := operation.notes.tag? "sequence"

/-- The tag of an operation that names no sequence. -/
def unknownTag? (operation : Line) : Option Text :=
  (tag? operation).filter fun value => (ofTag? value).isNone

/-- What a tier tells about an operation. -/
def ofTier? (operation : Line) : Tier → Option Sequence
  | .inlineTag => (tag? operation).bind ofTag?
  | .textHeuristic => ofText? operation.stripped
  | .operatorKind => operation.classification.operator.map Operator.sequence
  | .doubleColon => if operation.stripped.startsWith "::" then some imperative else none

/-- The tiers, in the order in which they are asked. -/
def tiers : List Tier := [.inlineTag, .textHeuristic, .operatorKind, .doubleColon]

/-- The sequence of an operation, and the first tier that told it. -/
def resolve? (operation : Line) : Option (Sequence × Tier) :=
  tiers.findSome? fun tier => (ofTier? operation tier).map fun s => (s, tier)

end Sequence

end PlanGraph
