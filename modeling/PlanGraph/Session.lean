import PlanGraph.Compilation
import PlanGraph.Reindex

set_option autoImplicit false

/-! # Sessions

A session keeps one text and goes on numbering references to files over all its compilations. -/

namespace PlanGraph

/-- A text under work. -/
structure Session where
  settings : Settings
  buffer : Text
  nextId : UInt32
deriving DecidableEq, Repr, Inhabited

namespace Session

/-- A session with an empty text. -/
def start (settings : Settings) : Session := ⟨settings, [], settings.firstId⟩

/-- Replaces the text. -/
def set (s : Session) (t : Text) : Session := { s with buffer := t }

/-- Puts a text behind the present one. -/
def append (s : Session) (t : Text) : Session := { s with buffer := s.buffer ++ t }

/-- Writes the positions into the text. -/
def reindex (s : Session) : Session × Reindex.Outcome :=
  let outcome := Reindex.run s.settings.indentWidth s.buffer
  (s.set outcome.text, outcome)

/-- The positions of the lines of the text. -/
def positions (s : Session) : List Position :=
  (Line.parse s.settings.indentWidth s.buffer).map (·.position)

/-- Compiles the text. -/
def compile (s : Session) : Session × CompiledPlan :=
  let (plan, nextId) := CompiledPlan.next s.settings s.nextId s.buffer
  ({ s with nextId }, plan)

end Session

end PlanGraph
