import Dpll.CommandLine.Options
import Dpll.Dimacs.Reader
import Dpll.Duration
import Dpll.Host
import Dpll.Problem
import Dpll.Search.Event
import Dpll.Text.Column
import Dpll.Text.Field

/-! What is shown of a solved problem: the answer with its model, a table of statistics, a row
of the results of a directory, and log entries. -/

namespace Dpll

/-- What solving a problem found and what it took. -/
structure Outcome where
  satisfiable : Bool
  /-- The literals made true, in the order of the formula's assignment. -/
  model : List Literal
  elapsed : Duration
  decisions : Nat
  propagationSteps : Nat
  checkedClauses : Option Nat
deriving DecidableEq, Repr

/-- The outcome of a search that took some time. -/
def Solution.outcome {n : Nat} (s : Solution n) (elapsed : Duration) : Outcome where
  satisfiable := s.isSatisfiable
  model := s.assignment
  elapsed
  decisions := s.heuristic.decisions
  propagationSteps := s.propagationSteps
  checkedClauses := s.formula.checkedClauses?

/-! ### Log entries -/

/-- What is logged of a DIMACS text that was read. -/
def DimacsDocument.notes (d : DimacsDocument) : List LogEntry :=
  let count := d.clauses.length
  (if d.declared = count then []
    else [⟨.warn, s!"header declares {d.declared} clauses but {count} were read"⟩]) ++
  [⟨.debug, s!"parsed {count} clauses over {d.numVars} variables"⟩]

/-- What is logged of a formula that was brought into clausal form. -/
def ClausalForm.note (t : ClausalForm) : LogEntry :=
  let clauses := t.cnf.clauses.length
  ⟨.debug,
    s!"translated {t.numInputs} variables into {clauses} clauses over {t.cnf.numVars} variables"⟩

/-- What is logged of a formula before it is searched. -/
def Cnf.note (f : Cnf) (r : Representation) : LogEntry :=
  ⟨.debug, s!"solving {f.clauses.length} clauses over {f.numVars} variables using {r}"⟩

/-- The log entry of an event: a trace, or a warning if it should not happen. -/
def SearchEvent.note {ℓ : Type} [ToString ℓ] (e : SearchEvent ℓ) : LogEntry :=
  ⟨if e.isWarning then .warn else .trace, e.message⟩

/-- What is logged of a search, once it has ended. -/
def Solution.notes {n : Nat} (s : Solution n) : List LogEntry :=
  let answer := if s.finished.answer then "satisfiable" else "unsatisfiable"
  s.events.map (·.note) ++
    [⟨.debug, s!"search finished: {answer} after {s.heuristic.decisions} decisions " ++
      s!"and {s.propagationSteps} propagation steps"⟩]

/-- What is logged of a problem before it is solved. -/
def Problem.note (p : Problem) (o : Options) : LogEntry :=
  ⟨.debug, s!"{p.cnf.numVars} variables, {p.cnf.clauses.length} clauses, " ++
    s!"{o.representation} representation, {o.heuristic} heuristic"⟩

/-! ### Printed lines -/

namespace Outcome

/-- The answer in one word. -/
def verdict (x : Outcome) : String := if x.satisfiable then "SAT" else "UNSAT"

/-- The answer, and the model if it is wanted and there is one. -/
def answerLines (x : Outcome) (p : Problem) (o : Options) : List String :=
  x.verdict ::
    if x.satisfiable && o.printModel then ["", "Model:", p.modelText x.model] else []

/-- The effort in one line. -/
def summary (x : Outcome) : String :=
  s!"Solving time: {x.elapsed.toText}, decisions: {x.decisions}, " ++
    s!"unit propagation steps: {x.propagationSteps}"

/-- A line of the table of statistics. -/
def tableLine (label value : String) : String := s!"|  {Text.alignLeft 28 label} {value}  |"

/-- A line with a value at its right end. -/
def valueLine (label value : String) : String := tableLine label (Text.alignRight 18 value)

/-- A line with a count and how much of it fell on a second. -/
def rateLine (x : Outcome) (label : String) (count : Nat) : String :=
  let rate := Text.alignRight 9 (x.elapsed.rate count)
  s!"|  {Text.alignLeft 20 label} {Text.alignRight 12 (toString count)} ({rate}/sec)  |"

/-- The lines on the use of memory. -/
def memoryLines : Option MemoryUse → List String
  | none => []
  | some m =>
    let mebibytes (bytes : Nat) : String := Text.rounded 2 (Double.quotient bytes 0x100000)
    [valueLine "Memory usage (MiB)" (mebibytes m.allocated),
      valueLine "Resident memory (MiB)" (mebibytes m.resident)]

/-- The table of statistics. The names of representation and heuristic are not aligned. -/
def table (x : Outcome) (p : Problem) (o : Options) (parseTime : Duration)
    (memory : Option MemoryUse) : List String :=
  ["",
    "=======================[ Problem Statistics ]=========================",
    valueLine "Parse time (s)" parseTime.roundedSeconds,
    valueLine "Variables" (toString p.cnf.numVars),
    valueLine "Clauses" (toString p.cnf.clauses.length),
    valueLine "Literals" (toString p.cnf.numLiterals),
    "========================[ Search Statistics ]========================",
    tableLine "Representation" (toString o.representation),
    tableLine "Heuristic" (toString o.heuristic),
    x.rateLine "Decisions" x.decisions,
    x.rateLine "Propagations" x.propagationSteps] ++
  (x.checkedClauses.toList.map (x.rateLine "Checked clauses")) ++
  memoryLines memory ++
  [valueLine "CPU time (s)" x.elapsed.roundedSeconds,
    "====================================================================="]

/-- The effort, as a table or in one line. -/
def effortLines (x : Outcome) (p : Problem) (o : Options) (parseTime : Duration)
    (memory : Option MemoryUse) : List String :=
  if o.statistics then x.table p o parseTime memory else [x.summary]

/-- The header of the results of a directory. -/
def rowHeader : String :=
  Text.fieldLine ["file", "result", "time", "decisions", "unit propagation steps"]

/-- The row of a file in the results of its directory. -/
def row (x : Outcome) (file : String) : String :=
  Text.fieldLine
    [file, x.verdict, x.elapsed.seconds, toString x.decisions, toString x.propagationSteps]

end Outcome

end Dpll
