import PlanGraph.Line.Physical
import PlanGraph.Position.Counter
import PlanGraph.Role

set_option autoImplicit false

/-! # Entries of a plan text

The lines of a plan with their positions: one main entry for each line that opens with a role
symbol, one inline entry for the comment on such a line, one comment entry for each other line.
Blank lines have no entry. A main entry is counted at its depth unless its comment asks for a
position; comments share the position of the main entry before them. -/

namespace PlanGraph

/-- How an entry stands in the plan. -/
inductive EntryForm where
  | main
  | comment
  | inlineComment
deriving DecidableEq, Repr, Inhabited

/-- The name of a form in a dump. -/
def EntryForm.name : EntryForm → Text
  | main => "main"
  | comment => "comment"
  | inlineComment => "inline_comment"

/-- One entry of a plan text. -/
structure Entry where
  position : Position
  depth : Nat
  form : EntryForm
  text : Text
  /-- The number of the line in the text, from one on. -/
  lineNumber : Nat
deriving DecidableEq, Repr, Inhabited

namespace Entry

/-- What is carried from line to line: the counts, and the position of the last main entry. -/
structure Cursor where
  counter : Counter
  position : Position
deriving DecidableEq, Repr, Inhabited

/-- Before the first line. -/
def Cursor.start : Cursor := ⟨.start, .absent⟩

/-- The cursor behind a main entry at a depth, whose inline comment may ask for a position. -/
def Cursor.step (cursor : Cursor) (depth : Nat) (comment : Option Text) : Cursor :=
  match comment.bind Physical.positionTag? with
  | some asked => ⟨.resetTo asked, asked⟩
  | none => ⟨cursor.counter.advance depth, (cursor.counter.advance depth).position⟩

/-- The entries of one line that is not blank, and the cursor behind it. -/
def ofLine (width : Nat) (cursor : Cursor) (lineNumber : Nat) (line : Text) :
    Cursor × List Entry :=
  let depth := Physical.depth width line
  if Role.opens line.trim then
    let (main, comment) := Physical.splitComment line.trim
    let cursor := cursor.step depth comment
    let inline := comment.toList.map fun c =>
      ⟨cursor.position, depth, .inlineComment, c, lineNumber⟩
    (cursor, ⟨cursor.position, depth, .main, Note.unescape main, lineNumber⟩ :: inline)
  else
    (cursor, [⟨cursor.position, depth, .comment, line.trim, lineNumber⟩])

/-- The entries of the lines from `lineNumber` on. -/
def ofLines (width : Nat) : Cursor → Nat → List Text → List Entry
  | _, _, [] => []
  | cursor, lineNumber, line :: lines =>
    if line.trim.isEmpty then ofLines width cursor (lineNumber + 1) lines
    else
      let (cursor, entries) := ofLine width cursor lineNumber line
      entries ++ ofLines width cursor (lineNumber + 1) lines

/-- The entries of a plan text. -/
def scan (width : Nat) (source : Text) : List Entry :=
  ofLines width .start 1 (Text.splitOn '\n' source)

end Entry

end PlanGraph
