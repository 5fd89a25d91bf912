import PlanGraph.Classification

set_option autoImplicit false

/-! # Names of concepts

The natural-language name of an operation is what its brackets enclose. A concept may also carry its
value in its own text, `name: "value"`. -/

namespace PlanGraph

namespace Naming

/-- Whether a text has no line break. -/
def isOneLine (t : Text) : Bool := t.all (· != '\n')

/-- What `opening` and `closing` enclose, if they are the ends of a text without line breaks. -/
def between? (opening closing t : Text) : Option Text :=
  ((t.after? opening).bind (Text.before? · closing)).filter isOneLine

/-- Whether a text is, behind blanks, one combinator in either spelling. -/
def isCombinator (t : Text) : Bool :=
  (between? ['<', '{'] ['}', '>'] t.trimStart).isSome ||
    (between? ['{', '<'] ['>', '}'] t.trimStart).isSome

/-- The text before the last `)` on the first line that a combinator alone follows. -/
def beforeCombinator? : Text → Option Text
  | [] => none
  | c :: rest =>
    if c = '\n' then none
    else match beforeCombinator? rest with
      | some front => some (c :: front)
      | none => if c = ')' ∧ isCombinator rest then some [] else none

/-- The natural-language name of an operation: what stands in `::(…)`, with or without a combinator
    behind it, or in `::{…}`; any other text is its own name. -/
def operation (t : Text) : Text :=
  (((between? "::(" ")" t).orElse fun _ => (t.after? "::(").bind beforeCombinator?).orElse fun _ =>
    between? [':', ':', '{'] ['}'] t).elim t Text.trim

/-- The value in a text `name: "value"`, in which neither part holds a quote. -/
def value? (t : Text) : Option Text :=
  match t.takeWhile (fun c => c != ':' && c != '"'),
      t.dropWhile (fun c => c != ':' && c != '"') with
  | _ :: _, ':' :: rest =>
    match Text.trimStart rest with
    | '"' :: quoted => (Text.before? quoted "\"").filter fun v => !v.any (· == '"')
    | _ => none
  | _, _ => none

end Naming

end PlanGraph
