import PlanGraph.Bracket.Basic

set_option autoImplicit false

/-! # Items of a list

A list in a plan separates its items by a character outside all brackets. An item that opens with a
quote runs to the next such quote, whatever stands between; a quote elsewhere is plain text. -/

namespace PlanGraph

namespace Items

/-- Whether a quote opens an item here: since the last cut there is nothing but blanks, or the last
    other character opens or separates items. `current` is the piece so far, last one first. -/
def opensItem (current : Text) : Bool :=
  match current.trimStart with
  | [] => true
  | c :: _ => c == '[' || c == ','

/-- The pieces of a text between the separators outside brackets and quotes. `current` is the piece
    so far, last character first; a closing bracket with no opening one is plain text. -/
def pieces (separator : Char) : Nat → Option Char → Text → Text → List Text
  | _, _, current, [] => [current.reverse]
  | depth, some quote, current, c :: rest =>
    pieces separator depth (if c = quote then none else some quote) (c :: current) rest
  | depth, none, current, c :: rest =>
    if (c = '"' ∨ c = '\'') ∧ opensItem current then
      pieces separator depth (some c) (c :: current) rest
    else if (Bracket.ofOpening? c).isSome then
      pieces separator (depth + 1) none (c :: current) rest
    else if (Bracket.ofClosing? c).isSome then
      pieces separator (depth - 1) none (c :: current) rest
    else if c = separator ∧ depth = 0 then
      current.reverse :: pieces separator depth none [] rest
    else
      pieces separator depth none (c :: current) rest

/-- The items of a text: its pieces, trimmed, without the empty ones. -/
def split (separator : Char) (t : Text) : List Text :=
  ((pieces separator 0 none [] t).map Text.trim).filter (!·.isEmpty)

end Items

end PlanGraph
