import PlanGraph.Line.Physical
import PlanGraph.Position.Counter
import PlanGraph.Role

set_option autoImplicit false

/-! # Writing positions into a plan

Every role line gets a tag `?{position}: P` with the position that its indentation gives it. A tag
that is there is corrected in place, else one is put at the end of the line. What the tags said
before has no influence on the numbers. -/

namespace PlanGraph

namespace Reindex

/-- A plan text with its positions, and the number of lines that changed. -/
structure Outcome where
  text : Text
  updated : Nat
deriving DecidableEq, Repr, Inhabited

/-! ## Lines and their endings -/

/-- The pieces between line feeds as lines, each with its ending. Only the last has none. -/
def withEndings : List Text → List (Text × Text)
  | [] => []
  | [last] => [(last, [])]
  | piece :: pieces =>
    (match piece.before? "\r" with
      | some body => (body, ['\r', '\n'])
      | none => (piece, ['\n'])) :: withEndings pieces

/-- The lines of a text, each with its ending. -/
def physicalLines (source : Text) : List (Text × Text) := withEndings (Text.splitOn '\n' source)

/-! ## Tags -/

/-- The opening of a position tag. -/
def tagOpening : Text := "?{position}:"

/-- A text with the value of its first position tag replaced, if it has such a tag. -/
def replaceTag? (position : Text) : Text → Option Text
  | [] => none
  | c :: rest =>
    match Text.after? (c :: rest) tagOpening with
    | some behind =>
      let gap := behind.takeWhile fun d => d == ' ' || d == '\t'
      let value := behind.dropWhile fun d => d == ' ' || d == '\t'
      some (tagOpening ++ gap ++ position ++ value.dropWhile fun d => d != '|' && !isBlank d)
    | none => (replaceTag? position rest).map (c :: ·)

/-- A line with a new tag at its end. -/
def appendTag (position body : Text) : Text :=
  body.trimEnd ++ " | ".toList ++ tagOpening ++ ' ' :: position

/-- A role line with its position. -/
def retag (position body : Text) : Text :=
  match Physical.splitPipe? false body with
  | some (main, comment) =>
    match replaceTag? position comment with
    | some replaced => main ++ replaced
    | none => appendTag position body
  | none => appendTag position body

/-! ## The whole text -/

/-- The lines with their positions. -/
def retagLines (width : Nat) : Counter → List (Text × Text) → List (Text × Text)
  | _, [] => []
  | counter, (body, ending) :: lines =>
    if Role.opens body.trim then
      let counter := counter.advance (Physical.depth width body)
      (retag counter.position.text body, ending) :: retagLines width counter lines
    else (body, ending) :: retagLines width counter lines

/-- Lines put together again. -/
def assemble (lines : List (Text × Text)) : Text :=
  lines.flatMap fun (body, ending) => body ++ ending

/-- A plan text with the positions of all its role lines. -/
def run (width : Nat) (source : Text) : Outcome :=
  let before := physicalLines source
  let after := retagLines width .start before
  ⟨assemble after, (before.zip after).countP fun (old, new) => old != new⟩

end Reindex

end PlanGraph
