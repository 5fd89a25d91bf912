import PlanGraph.Toml.Date
import PlanGraph.Toml.Number
import PlanGraph.Toml.Table

set_option autoImplicit false

/-! # Settings files

A settings file is a TOML document: keys with values, in tables that headers open. -/

namespace PlanGraph

namespace Toml

/-- How deep lists and tables may nest inside a value, and how many parts a key may have. -/
def maxNesting : Nat := 79

/-! ## Keys -/

/-- A character of a key without quotes. -/
def isBareKeyChar (c : Char) : Bool := c.isAlphanum || c == '_' || c == '-'

/-- One part of a key. -/
def keyPart? (t : Text) : Option (Text × Text) :=
  match t with
  | '"' :: rest => basicBody? rest
  | '\'' :: rest => literalBody? rest
  | _ =>
    match t.takeWhile isBareKeyChar with
    | [] => none
    | key => some (key, t.dropWhile isBareKeyChar)

/-- The parts of a key between dots, of which there may be `limit`; gaps may stand around each. -/
def key? : Nat → Text → Option (List Text × Text)
  | 0, _ => none
  | limit + 1, t => do
    let (part, rest) ← keyPart? (skipGap t)
    match skipGap rest with
    | '.' :: rest => (key? limit rest).map fun (parts, left) => (part :: parts, left)
    | rest => return ([part], rest)

/-- A key's path and its last part. -/
def keyPath? (t : Text) : Option (List Text × Text × Text) := do
  let (parts, rest) ← key? maxNesting t
  let last ← parts.getLast?
  return (parts.dropLast, last, rest)

/-! ## Values -/

/-- A value that holds no others. -/
def scalar? (t : Text) : Option (Node × Text) :=
  match t with
  | '"' :: _ => (string? t).map fun (s, rest) => (.value (.text s), rest)
  | '\'' :: _ => (string? t).map fun (s, rest) => (.value (.text s), rest)
  | _ =>
    if let some rest := t.after? "true" then some (.value (.bool true), rest)
    else if let some rest := t.after? "false" then some (.value (.bool false), rest)
    else if let some (spelling, rest) := dateTime? t then some (.date spelling, rest)
    else (number? t).map fun (v, rest) => (.value v, rest)

/-- The items of a list behind its opening bracket; gaps, line breaks and comments may stand around
    each, and a comma behind the last. The list has at most `limit` items. -/
def items? (value : Text → Option (Node × Text)) :
    Nat → Text → Option (List Node × Text)
  | 0, _ => none
  | limit + 1, t =>
    match skipLines false t with
    | ']' :: rest => some ([], rest)
    | t => do
      let (v, rest) ← value t
      match skipLines false rest with
      | ',' :: rest => (items? value limit rest).map fun (vs, left) => (v :: vs, left)
      | ']' :: rest => return ([v], rest)
      | _ => none

/-- A key and its value. -/
def keyValue? (value : Text → Option (Node × Text)) (t : Text) :
    Option ((List Text × Text × Node) × Text) := do
  let (path, key, rest) ← keyPath? t
  let rest ← rest.after? "="
  let (v, rest) ← value (skipGap rest)
  return ((path, key, v), rest)

/-- The entries of a table in curly brackets behind the first bracket, added to those before. It has
    at most `limit` entries. -/
def inlineEntries? (value : Text → Option (Node × Text)) :
    Nat → Entries → Text → Option (Entries × Text)
  | 0, _, _ => none
  | limit + 1, before, t => do
    let ((path, key, v), rest) ← keyValue? value t
    let entries ← putKey path key v before
    match skipGap rest with
    | ',' :: rest => inlineEntries? value limit entries rest
    | '}' :: rest => return (entries, rest)
    | _ => none

/-- A table in curly brackets behind the first bracket. -/
def inlineTable? (value : Text → Option (Node × Text)) (t : Text) :
    Option (Node × Text) :=
  match skipGap t with
  | '}' :: rest => some (.table .inline [], rest)
  | _ => (inlineEntries? value (t.length + 1) [] t).map fun (entries, rest) =>
    (.table .inline entries, rest)

/-- The value at the front of a text; lists and tables may nest `depth` deep. -/
def value? : Nat → Text → Option (Node × Text)
  | 0, t => scalar? t
  | depth + 1, t =>
    match t with
    | '[' :: rest =>
      (items? (value? depth) (rest.length + 1) rest).map fun (vs, left) => (.list vs, left)
    | '{' :: rest => inlineTable? (value? depth) rest
    | _ => scalar? t

/-! ## Documents -/

/-- A document under work: what it holds, and the header under which keys stand. -/
structure Draft where
  root : Entries
  header : List Text
deriving Repr, Inhabited

/-- A header behind its opening bracket or brackets. -/
def header? (closing : Text) (t : Text) : Option (List Text × Text × Text) := do
  let (path, key, rest) ← keyPath? t
  let rest ← rest.after? closing
  let rest ← restOfLine? rest
  return (path, key, rest)

/-- Reads one statement: an empty line, a comment, a header, or a key with its value. -/
def statement? (draft : Draft) (t : Text) : Option (Draft × Text) :=
  match t with
  | '[' :: '[' :: rest => do
    let (path, key, rest) ← header? "]]" rest
    let root ← changeTable path (openListed key) draft.root
    return (⟨root, path ++ [key]⟩, rest)
  | '[' :: rest => do
    let (path, key, rest) ← header? "]" rest
    let root ← changeTable path (openTable key) draft.root
    return (⟨root, path ++ [key]⟩, rest)
  | '#' :: _ => (restOfLine? t).map fun rest => (draft, rest)
  | '\n' :: rest => some (draft, rest)
  | '\r' :: '\n' :: rest => some (draft, rest)
  | _ => do
    let ((path, key, v), rest) ← keyValue? (value? maxNesting) t
    let rest ← restOfLine? rest
    let root ← changeTable draft.header (putKey path key v) draft.root
    return (⟨root, draft.header⟩, rest)

/-- Reads statements up to the end of the text, of which there are at most `limit`. -/
def statements? : Nat → Draft → Text → Option Draft
  | 0, _, _ => none
  | limit + 1, draft, t =>
    match skipGap t with
    | [] => some draft
    | t =>
      match statement? draft t with
      | some (draft, rest) => statements? limit draft rest
      | none => none

/-- The table that a document spells. A byte order mark may stand at its front. -/
def read? (t : Text) : Option (TextMap SettingValue) :=
  let t := match t with
    | '\ufeff' :: rest => rest
    | _ => t
  match (statements? (t.length + 1) ⟨[], []⟩ t).bind fun draft => Node.ofTable? draft.root with
  | some (.table entries) => some entries
  | _ => none

end Toml

end PlanGraph
