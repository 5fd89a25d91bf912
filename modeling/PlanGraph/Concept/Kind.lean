import PlanGraph.Operator

set_option autoImplicit false

/-! # Kinds of concepts

What a line's text denotes: an operation in one of three spellings, a thing in one of four kinds of
brackets, or no concept at all. -/

namespace PlanGraph

/-- The kind of concept that a line denotes. -/
inductive ConceptKind where
  | operator
  | judgement
  | imperative
  | subject
  | proposition
  | relation
  | object
  | comment
  | informal
deriving DecidableEq, Repr, Inhabited

namespace ConceptKind

/-- All kinds. -/
def all : List ConceptKind :=
  [operator, judgement, imperative, subject, proposition, relation, object, comment, informal]

/-- The name of a kind in a dump. -/
def name : ConceptKind → Text
  | operator => "operator"
  | judgement => "judgement"
  | imperative => "imperative"
  | subject => "subject"
  | proposition => "proposition"
  | relation => "relation"
  | object => "object"
  | comment => "comment"
  | informal => "informal"

/-- Operations are known by their whole text, all other concepts by their name. -/
def isFunctionLike : ConceptKind → Bool
  | operator | judgement | imperative => true
  | _ => false

/-- The mark of a kind in the concept table. An operator has its own symbol there. -/
def marker (kind : ConceptKind) (op : Option Operator) : Text :=
  match kind with
  | operator => (op.map Operator.symbol).getD "<="
  | judgement => "::(){}"
  | imperative => "::({})"
  | subject => ":S:"
  | proposition => "<>"
  | relation => "[]"
  | object => "{}"
  | comment => "//"
  | informal => "?"

/-- A bare name in the brackets of its kind. -/
def wrap : ConceptKind → Text → Text
  | proposition, name => '<' :: (name ++ ['>'])
  | relation, name => '[' :: (name ++ [']'])
  | object, name => '{' :: (name ++ ['}'])
  | subject, name => name ++ [':']
  | _, name => name

end ConceptKind

/-- The openings that make a text a comment, in the order in which they are tried. -/
def commentOpenings : List Text := ["...:", "?:", "/:", "|", "#"]

/-- Whether a text opens as a comment. -/
def opensComment (t : Text) : Bool := commentOpenings.any t.startsWith

end PlanGraph
