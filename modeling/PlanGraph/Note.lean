import PlanGraph.Text.Map

set_option autoImplicit false

/-! # Notes on a line

The comments of a line carry side information in two forms: keyed notes `| %{key}: value` and tags
`?{key}: value`. A value runs up to the next pipe that no backslash stands before, so several notes
can share one comment. Where a key is given twice the first value counts. -/

namespace PlanGraph

namespace Note

/-! ## Keys and values -/

/-- The key in front of `}:`, which has at least one character and no curly bracket, and what
    follows. -/
def keyed? (t : Text) : Option (Text × Text) :=
  match t.takeWhile fun c => c != '{' && c != '}' with
  | [] => none
  | key =>
    (Text.after? (t.dropWhile fun c => c != '{' && c != '}') ['}', ':']).map fun rest => (key, rest)

/-- The text up to the first pipe that no backslash stands before, and the text from there on. -/
def untilPipe : Text → Text × Text
  | [] => ([], [])
  | '\\' :: '|' :: rest => ('\\' :: '|' :: (untilPipe rest).1, (untilPipe rest).2)
  | c :: rest => if c = '|' then ([], c :: rest) else (c :: (untilPipe rest).1, (untilPipe rest).2)

/-- A text in which each pipe behind a backslash stands without it. -/
def unescape : Text → Text
  | [] => []
  | '\\' :: '|' :: rest => '|' :: unescape rest
  | c :: rest => c :: unescape rest

/-- A value as it is meant: trimmed, with plain pipes. -/
def clean (raw : Text) : Text := unescape raw.trim

/-- The key and value behind the opening of a note, and what follows the value. -/
def pair? (t : Text) : Option ((Text × Text) × Text) := do
  let (key, rest) ← keyed? t
  return ((key.trim, clean (untilPipe rest).1), (untilPipe rest).2)

/-- A keyed note at the front of a text. -/
def keyedPair? : Text → Option ((Text × Text) × Text)
  | '|' :: rest => ((Text.trimStart rest).after? ['%', '{']).bind pair?
  | _ => none

/-- A tag at the front of a text. -/
def tagPair? (t : Text) : Option ((Text × Text) × Text) := (t.after? ['?', '{']).bind pair?

/-- The keyed notes of a comment, in order. -/
def keyedEntries (comment : Text) : List (Text × Text) := comment.allMatches keyedPair?

/-- The tags of a comment, in order. -/
def tagEntries (comment : Text) : List (Text × Text) := comment.allMatches tagPair?

/-! ## Flags -/

/-- Whether a comment says that the concept is given: `/: ground`, in any case, with or without the
    opening. -/
def isGround (comment : Text) : Bool :=
  ((comment.trim.after? "/:").getD comment.trim).trim.lower == "ground".toList

/-- Whether a value switches a flag on. -/
def isTruthy (value : Text) : Bool :=
  ["true".toList, "yes".toList, "1".toList, "on".toList].contains value.trim.lower

/-- A text without the pair of quotes around it, if there is one. -/
def unquote (t : Text) : Text :=
  match t.trim with
  | [] => []
  | q :: rest =>
    if (q = '"' ∨ q = '\'') ∧ rest.getLast? = some q then rest.dropLast else q :: rest

end Note

/-- All notes of one line. -/
structure Notes where
  keyed : TextMap Text
  tags : TextMap Text
  isGround : Bool
deriving DecidableEq, Repr, Inhabited

namespace Notes

/-- The notes in a line's comments. -/
def ofComments (comments : List Text) : Notes where
  keyed := TextMap.ofFirst (comments.flatMap Note.keyedEntries)
  tags := TextMap.ofFirst (comments.flatMap Note.tagEntries)
  isGround := comments.any Note.isGround

/-- The value of a keyed note. -/
def get? (notes : Notes) (key : Text) : Option Text := notes.keyed.get? key

/-- The value of a tag. -/
def tag? (notes : Notes) (key : Text) : Option Text := notes.tags.get? key

/-- Whether a keyed note switches a flag on. -/
def flag (notes : Notes) (key : Text) : Bool := ((notes.get? key).map Note.isTruthy).getD false

end Notes

end PlanGraph
