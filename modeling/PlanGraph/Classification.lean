import PlanGraph.Bracket.Basic
import PlanGraph.Concept.Kind
import PlanGraph.Role

set_option autoImplicit false

/-! # Classification of a line

What a line's text says by itself: its role, the kind of its concept, the name and what follows the
name. Every text has a classification; one that fits no form is `informal` and carries warnings.
The forms are tried in a fixed order: operator symbols, operations in words, subjects, brackets,
comments. -/

namespace PlanGraph

/-- What one line denotes. -/
structure Classification where
  role : Option Role
  kind : ConceptKind
  operator : Option Operator
  /-- What the brackets enclose; the whole text for an operation. -/
  name : Text
  /-- What follows a bracketed name. -/
  suffix : Text
  warnings : List Text
deriving DecidableEq, Repr, Inhabited

namespace Classification

/-- The warning for a bracket that is never closed. -/
def unclosedBracket : Text := "unclosed bracket"

/-- The warning for a text that fits no form. -/
def unrecognizedForm : Text := "unrecognized concept form"

/-- The further warning for such a text behind a role symbol. -/
def unrecognizedAfterRole : Text := "unrecognized form after marker"

/-- The name in the brackets of its kind. -/
def formattedName (c : Classification) : Text := c.kind.wrap c.name

/-- The mark of the concept in the concept table. -/
def kindMarker (c : Classification) : Text := c.kind.marker c.operator

/-! ## Judgements -/

/-- Whether, on the first line of `t`, some `)` is followed by a text that `holds`. -/
def closesBefore (holds : Text → Bool) : Text → Bool
  | [] => false
  | c :: rest => c != '\n' && ((c == ')' && holds rest) || closesBefore holds rest)

/-- Whether a text opens, behind blanks, with a combinator: `<{`, then `}>` on the same line, or the
    older spelling `{<`, then `>}`. -/
def opensCombinator (t : Text) : Bool :=
  let ends (opening closing : Text) : Bool :=
    match t.trimStart.after? opening with
    | some rest => Text.contains (rest.takeWhile (· != '\n')) closing
    | none => false
  ends ['<', '{'] ['}', '>'] || ends ['{', '<'] ['>', '}']

/-- Whether a text is a judgement: an operation in words whose round bracket is followed by a
    combinator. -/
def isJudgement (t : Text) : Bool :=
  match t.after? "::(" with
  | some body => closesBefore opensCombinator body
  | none => false

/-! ## Subjects -/

/-- A character that may open the name of a subject. -/
def opensSubject (c : Char) : Bool := c.isAlpha || c == '_'

/-- A character that may continue the name of a subject. -/
def continuesSubject (c : Char) : Bool := c.isAlphanum || c == '_' || c == ' '

/-- The name of a subject and what follows it: ASCII letters, digits, underscores and spaces up to a
    colon, which ends the text or stands before a blank. -/
def subject? : Text → Option (Text × Text)
  | [] => none
  | c :: rest =>
    if opensSubject c then
      match rest.dropWhile continuesSubject with
      | ':' :: suffix =>
        if (suffix.head?.map isBlank).getD true then
          some (Text.trim (c :: rest.takeWhile continuesSubject), Text.trim suffix)
        else none
      | _ => none
    else none

/-! ## The forms in order -/

/-- The kind of concept whose brackets a character opens. -/
def bracketedKind? : Char → Option (ConceptKind × Bracket)
  | '<' => some (.proposition, .angle)
  | '[' => some (.relation, .square)
  | '{' => some (.object, .curly)
  | _ => none

/-- A bracketed concept at the front of a text. A bracket that is never closed takes the whole text
    for its name. -/
def bracketed? (role : Option Role) : Text → Option Classification
  | [] => none
  | c :: rest => do
    let (kind, b) ← bracketedKind? c
    match b.close? rest with
    | some (inner, left) => return ⟨role, kind, none, inner.trim, left.trim, []⟩
    | none => return ⟨role, kind, none, Text.trim rest, [], [unclosedBracket]⟩

/-- The classification of a trimmed text behind its role symbol. -/
def ofBody (role : Option Role) (body : Text) : Classification :=
  if let some op := Operator.opening? body then
    ⟨role, .operator, some op, body, [], []⟩
  else if body.startsWith "::" then
    ⟨role, if isJudgement body then .judgement else .imperative, none, body, [], []⟩
  else if let some (name, suffix) := subject? body then
    ⟨role, .subject, none, name, suffix, []⟩
  else if let some found := bracketed? role body then
    found
  else if opensComment body then
    ⟨role, .comment, none, body, [], []⟩
  else if role.isSome then
    ⟨role, .informal, none, body.firstWord, [], [unrecognizedForm, unrecognizedAfterRole]⟩
  else
    ⟨role, .informal, none, body, [], [unrecognizedForm]⟩

/-- The classification of a line's text. -/
def ofText (content : Text) : Classification :=
  let (role, rest) := Role.strip content.trim
  ofBody role rest.trim

end Classification

end PlanGraph
