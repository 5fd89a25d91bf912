import PlanGraph.Bracket.Items
import PlanGraph.Json.Basic
import PlanGraph.Note
import PlanGraph.Text.Digit

set_option autoImplicit false

/-! # Literal values

A note may give a concept its value: a number, a quoted text, one of the six constant words, or a
flat list of these. Each scalar is kept as the sign `%(scalar)`. -/

namespace PlanGraph

/-- The value of a concept: one sign, or a list of signs. -/
inductive Literal where
  | one (sign : Text)
  | many (signs : List Text)
deriving DecidableEq, Repr, Inhabited

namespace Literal

/-- The sign of a scalar. -/
def sign (scalar : Text) : Text := '%' :: '(' :: (scalar ++ [')'])

/-! ## Scalars -/

/-- Whether a text is a number: an optional minus sign, digits, and perhaps a point and digits. -/
def isNumber (t : Text) : Bool :=
  let body := match t with
    | '-' :: rest => rest
    | _ => t
  match body.takeWhile isDecimalDigit, body.dropWhile isDecimalDigit with
  | [], _ => false
  | _ :: _, [] => true
  | _ :: _, '.' :: rest => !rest.isEmpty && rest.all isDecimalDigit
  | _ :: _, _ => false

/-- The words that stand for themselves. -/
def constants : List Text := ["True", "False", "true", "false", "None", "null"]

/-- What a pair of quotes around the whole text encloses, if that quote does not stand inside. -/
def quoted? : Text → Option Text
  | [] => none
  | q :: rest =>
    if (q = '"' ∨ q = '\'') ∧ rest.getLast? = some q ∧ !rest.dropLast.contains q then
      some rest.dropLast
    else none

/-- The sign of a scalar's text. -/
def scalar? (t : Text) : Option Text :=
  if isNumber t.trim then some (sign t.trim)
  else if constants.contains t.trim then some (sign t.trim)
  else (quoted? t.trim).map sign

/-! ## Literals -/

/-- The signs of the items of a list, none of which may be a list itself. -/
def items? (items : List Text) : Option (List Text) :=
  items.mapM fun item => if item.startsWith "[" then none else scalar? item

/-- The value that a text spells, if it spells one. -/
def structural? (t : Text) : Option Literal :=
  if t.trim.startsWith "[" then do
    let inner ← Bracket.square.strip? t.trim
    let signs ← items? (Items.split ',' inner)
    return many signs
  else (scalar? t.trim).map one

/-- The value of a text; one that spells no value stands for itself. -/
def ofText (t : Text) : Literal := (structural? t).getD (one (sign t.trim))

/-- A value as JSON: a string or a list of strings. -/
def toJson : Literal → Json
  | one s => .string s
  | many signs => .ofTexts signs

/-! ## Literal notes -/

/-- The marker and name in the key `literal<$marker name>`. Blanks alone between the marker and the
    closing bracket are an empty name, if there are two of them and the last is no line break. -/
def markedKey? (key : Text) : Option (Text × Text) := do
  let rest ← key.after? "literal<$"
  let marker := rest.takeWhile (!isBlank ·)
  let behind := rest.dropWhile (!isBlank ·)
  let gap := behind.takeWhile isBlank
  let name ← Text.before? (behind.dropWhile isBlank) ">"
  if marker.isEmpty || gap.isEmpty || name.any (· == '\n') then none
  else if name.isEmpty then
    if 2 ≤ gap.length && gap.getLast? != some '\n' then some (marker, []) else none
  else some (marker, name.trim)

/-- The marker and name that a key of a literal note gives; both are empty for a plain `literal`. -/
def key? (key : Text) : Option (Text × Text) :=
  if key = "literal".toList then some ([], []) else markedKey? key

end Literal

/-- A note that gives a value. -/
structure LiteralNote where
  /-- The marker of the assignment that it belongs to; empty for a plain note. -/
  marker : Text
  /-- The concept that it belongs to; empty for a plain note. -/
  name : Text
  value : Literal
deriving DecidableEq, Repr, Inhabited

namespace LiteralNote

/-- The literal note that a keyed note is, if it is one. -/
def ofEntry? (entry : Text × Text) : Option LiteralNote :=
  (Literal.key? entry.1).map fun (marker, name) => ⟨marker, name, Literal.ofText entry.2⟩

/-- The literal notes in a line's comments, in order. -/
def ofComments (comments : List Text) : List LiteralNote :=
  (comments.flatMap Note.keyedEntries).filterMap ofEntry?

/-- The literal notes with the given marker. -/
def withMarker (marker : Text) (notes : List LiteralNote) : List LiteralNote :=
  notes.filter (·.marker == marker)

end LiteralNote

end PlanGraph
