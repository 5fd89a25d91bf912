import PlanGraph.Note
import PlanGraph.Position.Basic

set_option autoImplicit false

/-! # Lines as they are written

The indentation of a line gives its depth, and its first pipe that is not escaped opens the inline
comment. -/

namespace PlanGraph

namespace Physical

/-- The indentation in spaces; a tab counts for a whole indent. The count is a number of 64 bits and
    starts over behind the largest. -/
def indentation (width : Nat) : Text → Nat
  | ' ' :: rest => (1 + indentation width rest) % (Numeral.max64 + 1)
  | '\t' :: rest => (width + indentation width rest) % (Numeral.max64 + 1)
  | _ => 0

/-- The depth of a line: how many whole indents it starts with. -/
def depth (width : Nat) (line : Text) : Nat := indentation width line / max width 1

/-- Cuts a text at its first pipe that is not escaped. A backslash escapes the next character, so
    of two backslashes in a row the first escapes the second. `escaped` says whether the first
    character is. -/
def splitPipe? (escaped : Bool) : Text → Option (Text × Text)
  | [] => none
  | c :: rest =>
    if c = '\\' then (splitPipe? (!escaped) rest).map fun (front, back) => (c :: front, back)
    else if c = '|' ∧ !escaped then some ([], c :: rest)
    else (splitPipe? false rest).map fun (front, back) => (c :: front, back)

/-- The byte offset of the first pipe that is not escaped. -/
def pipeOffset? (line : Text) : Option Nat :=
  (splitPipe? false line).map fun (front, _) => front.byteSize

/-- The main text of a line, and its inline comment from the pipe on. A pipe with nothing behind it
    opens no comment. -/
def splitComment (line : Text) : Text × Option Text :=
  match splitPipe? false line with
  | some (main, comment) =>
    (main.trim, if 1 < comment.trim.length then some comment.trim else none)
  | none => (line.trim, none)

/-- The position that an inline comment asks for. -/
def positionTag? (comment : Text) : Option Position :=
  (((TextMap.ofFirst (Note.tagEntries comment)).get? "position").filter (!·.isEmpty)).map
    Position.ofText

theorem splitPipe?_append {escaped : Bool} {line front back : Text}
    (h : splitPipe? escaped line = some (front, back)) : line = front ++ back := by
  induction line generalizing escaped front back with
  | nil => simp [splitPipe?] at h
  | cons c rest ih =>
    rw [splitPipe?] at h
    split at h
    · obtain ⟨⟨a, b⟩, hab, heq⟩ := Option.map_eq_some_iff.1 h
      cases heq
      simp [ih hab]
    · split at h
      · cases h; simp
      · obtain ⟨⟨a, b⟩, hab, heq⟩ := Option.map_eq_some_iff.1 h
        cases heq
        simp [ih hab]

end Physical

end PlanGraph
