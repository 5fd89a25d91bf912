import PlanGraph.Compilation

set_option autoImplicit false

/-! # Sample plans

A few short plans that show one construct each, and one that shows most of them together. -/

namespace PlanGraph

/-- A sample plan. -/
structure Sample where
  name : Text
  source : Text
deriving DecidableEq, Repr, Inhabited

namespace Sample

/-- A sample from its lines. -/
def ofLines (name : Text) (lines : List Text) : Sample := ⟨name, lines.flatMap (· ++ ['\n'])⟩

/-- A value taken over from one source. -/
def specification : Sample :=
  ofLines "000-specification.ncds"
  [":<: {result}",
   "    <= $.(...) %>({source})",
   "    <- {source}"]

/-- Values that are used in the order of their bindings. -/
def imperativeBindings : Sample :=
  ofLines "010-imperative-bindings.ncds"
  ["# Bindings decide the value order, not the textual order.",
   ":<: {sum}",
   "...: the sum of both numbers",
   "    <= ::(add {1} and {2})",
   "    <- {second number}<:{2}>",
   "    <- {first number}<:{1}>"]

/-- Two values grouped across an axis. -/
def groupingAcross : Sample :=
  ofLines "020-grouping-across.ncds"
  [":<: {paired rows}",
   "    <= &[#] %>[{left rows}, {right rows}]",
   "    <- {left rows} | %{axis}: [row]",
   "    /: ground",
   "    <- {right rows} | %{axis}: [row]",
   "    /: ground"]

/-- A loop that carries a running value. -/
def loopAccumulate : Sample :=
  ofLines "030-loop-accumulate.ncds"
  [":<: {total}",
   "    <= *every %>(numbers) %<({total}) %@(1)",
   "    <* {number}<$([numbers])*> | %{axis}: number",
   "    <* {running total}<$([numbers])*-1>",
   "    <= ::(add {number} to {running total})",
   "    <- [numbers] | %{literal}: [1, 2, 3]"]

/-- An inference that waits for a judgement. -/
def timingJudgement : Sample :=
  ofLines "040-timing-judgement.ncds"
  [":<: {report}",
   "    <= @if %>(<data is valid>)",
   "    <- <data is valid>",
   "        <= ::(every row has a date)<{ALL True}>",
   "        <- [rows] | %{file_location}: data/rows.csv"]

/-- A plan that shows most constructs together. -/
def fullPlan : Sample :=
  ofLines "050-full-plan.ncds"
  ["# Summarize a CSV into a short report.",
   ":<: {report} | %{element_type}: text",
   "...: a one-paragraph summary of the table",
   "    <= ::(summarize {1} within {2}) | %{v_input_provision}: prompts/summarize.md",
   "    <- {table}<:{1}> | %{file_location}: data/table.csv",
   "    <- {word limit}<:{2}>",
   "        <= $% %>(120)",
   "    <- {style notes}",
   "        <= $. %>({house style})",
   "        <- {house style} | %{literal}: \"plain\"",
   "    <* {reviewer}",
   "    <= @after %>({table})"]

/-- All samples. -/
def all : List Sample :=
  [specification, imperativeBindings, groupingAcross, loopAccumulate,
   timingJudgement, fullPlan]

/-- The sample of a name. -/
def get? (name : Text) : Option Sample := all.find? (·.name == name)

/-- A sample compiled with the default settings. -/
def compile (s : Sample) : CompiledPlan := .ofText {} s.source

end Sample

end PlanGraph
