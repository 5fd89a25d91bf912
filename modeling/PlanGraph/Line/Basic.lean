import PlanGraph.Classification
import PlanGraph.Line.Entry

set_option autoImplicit false

/-! # Lines of a plan

A line is a main entry with its classification and the comments that follow it up to the next main
entry. Comments before the first main entry belong to no line. -/

namespace PlanGraph

/-- A role line with what belongs to it. -/
structure Line where
  position : Position
  depth : Nat
  /-- The main text with its role symbol, without the inline comment. -/
  content : Text
  classification : Classification
  comments : List Text
  /-- The natural-language wording, where the first comment line gives it. -/
  sourceText : Option Text
  lineNumber : Nat
deriving DecidableEq, Repr, Inhabited

namespace Line

/-! ## What a line is called -/

/-- The role of a line. -/
def role (l : Line) : Option Role := l.classification.role

/-- The kind of a line's concept. -/
def kind (l : Line) : ConceptKind := l.classification.kind

/-- The bare name of a line's concept. -/
def name (l : Line) : Text := l.classification.name

/-- Whether a line has a role. -/
def hasRole (l : Line) (role : Role) : Bool := l.role == some role

/-- The content without its role symbol. -/
def stripped (l : Line) : Text := (Role.strip l.content).2.trim

/-- What other lines and rows call the concept: an operation by its text, all else by its name in
    brackets. -/
def reference (l : Line) : Text :=
  if l.kind.isFunctionLike then l.stripped else l.classification.formattedName

/-- What makes two lines mention one concept: the whole content of an operation, the bare name of
    all else. -/
def conceptKey (l : Line) : Text := if l.kind.isFunctionLike then l.content else l.name

/-- The notes in a line's comments. -/
def notes (l : Line) : Notes := .ofComments l.comments

/-! ## Lines from entries -/

/-- The natural-language wording in the comments of a line: the first comment that has a line to
    itself, if it opens with `...:`. -/
def wording? (followers : List Entry) : Option Text := do
  let first ← followers.find? (·.form == .comment)
  let rest ← first.text.after? "...:"
  return rest.trim

/-- The line of a main entry and the comments that follow it. -/
def ofEntry (main : Entry) (followers : List Entry) : Line where
  position := main.position
  depth := main.depth
  content := main.text
  classification := .ofText main.text
  comments := followers.map (·.text)
  sourceText := wording? followers
  lineNumber := main.lineNumber

/-- The comments in front of the first main entry, and the lines. -/
def group (entries : List Entry) : List Entry × List Line :=
  entries.foldr
    (fun e (followers, lines) =>
      match e.form with
      | .main => ([], ofEntry e followers :: lines)
      | _ => (e :: followers, lines))
    ([], [])

/-- The lines of a plan text. -/
def parse (width : Nat) (source : Text) : List Line := (group (Entry.scan width source)).2

end Line

end PlanGraph
