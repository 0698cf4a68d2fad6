import Dpll.CommandLine.Failure
import Dpll.CommandLine.Report
import Dpll.Dimacs.Writer

/-! The commands, as programs for any host. A command that fails has printed and written what
came before its failure and nothing after it. -/

namespace Dpll

/-- A program that may fail. -/
abbrev CommandM (μ : Type → Type) := ExceptT Failure μ

namespace CommandM

variable {μ : Type → Type} [Monad μ]

/-- Makes a request that cannot fail. -/
def ask {α : Type} (request : μ α) : CommandM μ α := ExceptT.lift request

/-- Makes a request, and fails if it does. -/
def attempt {α : Type} (failure : Fault → Failure) (request : μ (Except Fault α)) :
    CommandM μ α := do
  match ← ask request with
  | .ok a => return a
  | .error fault => throw (failure fault)

variable [Host μ]

/-- Logs entries in order. -/
def logAll : List LogEntry → CommandM μ Unit
  | [] => return
  | entry :: entries => do
    ask (Host.log entry)
    logAll entries

/-- Prints lines. -/
def printLines (lines : List String) : CommandM μ Unit :=
  ask (Host.print (String.join (lines.map (· ++ "\n"))))

/-- Runs a program and takes its time. -/
def timed {α : Type} (program : CommandM μ α) : CommandM μ (α × Duration) := do
  let start ← ask Host.clock
  let a ← program
  let stop ← ask Host.clock
  return (a, .between start stop)

/-! ### Problems -/

/-- Reads a file in DIMACS form. -/
def readDimacs (p : Path) : CommandM μ Problem := do
  let bytes ← attempt (fun fault => .dimacs (.unreadable fault)) (Host.readFile p)
  match DimacsDocument.read bytes with
  | .error e => throw (.dimacs e)
  | .ok d =>
    logAll d.notes
    return ⟨d.toCnf, .dimacs⟩

/-- Reads bytes as text. -/
def readText (request : μ (Except Fault (List UInt8))) : CommandM μ String := do
  match Text.decode? (← attempt .inaccessible request) with
  | none => throw (.inaccessible .invalidUtf8)
  | some cs => return String.ofList cs

/-- Reads a formula in negation normal form and encodes it in clauses. -/
def encode (o : Options) (text : String) : CommandM μ ClausalForm := do
  match ClausalForm.read o.encoding text with
  | .error e => throw (.formula e)
  | .ok t =>
    logAll [t.note]
    return t

/-- Reads a formula in negation normal form as a problem. -/
def readNnf (o : Options) (text : String) : CommandM μ Problem := do
  return ⟨(← encode o text).cnf, .nnf⟩

/-- Reads a problem from a file in the form that its extension tells. -/
def readProblem (o : Options) (p : Path) : CommandM μ Problem :=
  match Format.ofPath? p with
  | none => throw (.unsupportedInput p)
  | some .dimacs => readDimacs p
  | some .nnf => do readNnf o (← readText (Host.readFile p))

/-! ### Solving -/

/-- Solves a formula. -/
def solve (o : Options) (f : Cnf) : CommandM μ Outcome := do
  let recorded ← ask (Host.admits .trace)
  logAll [f.note o.representation]
  let start ← ask Host.clock
  match f.solve? o.representation o.start recorded with
  | none => throw .unsearchable
  | some s =>
    logAll s.notes
    let stop ← ask Host.clock
    let x := s.outcome (.between start stop)
    logAll [⟨.debug, s!"solved in {x.elapsed.toText}"⟩]
    return x

/-- Checks a model that was found. -/
def verify (x : Outcome) (p : Problem) : CommandM μ Unit := do
  if x.satisfiable then
    let accepted := p.accepts x.model
    printLines [s!"Verified: {accepted}"]
    unless accepted do throw .verificationFailed

/-- Solves a problem and prints the answer. -/
def report (o : Options) (p : Problem) (label : Option Path) (parseTime : Duration) :
    CommandM μ Outcome := do
  logAll (label.toList.map fun path => ⟨.info, s!"Solving: {path}"⟩)
  logAll [p.note o]
  let x ← solve o p.cnf
  let memory ← ask Host.memory
  printLines (x.answerLines p o)
  if o.verify then verify x p
  printLines (x.effortLines p o parseTime memory)
  return x

/-- Solves a file. -/
def solveFile (o : Options) (p : Path) : CommandM μ Unit := do
  let (problem, parseTime) ← timed (readProblem o p)
  let _ ← report o problem (some p) parseTime

/-- Solves a formula in negation normal form, by default the first line of the input. -/
def solveText (o : Options) (formula : Option String) : CommandM μ Unit := do
  let text ←
    match formula with
    | some text => pure text
    | none => do
      let line ← attempt .inaccessible Host.readInputLine
      readText (pure (.ok ((Text.lines line).headD [])))
  let (problem, parseTime) ← timed (readNnf o text)
  let _ ← report o problem none parseTime

/-! ### Directories -/

/-- Solves the files among some entries of a directory and adds a row for each to the results;
the first row comes with the header. -/
def solveEntries (o : Options) (directory results : Path) (isFirst : Bool) :
    List DirectoryEntry → CommandM μ Unit
  | [] => return
  | entry :: entries => do
    let p := directory.join entry.name
    if entry.isFile && p.extension? == some "cnf" then
      let (problem, parseTime) ← timed (readDimacs p)
      let x ← report o problem (some p) parseTime
      let header := if isFirst then Outcome.rowHeader else ""
      attempt .unwrittenResults (Host.appendFile results (header ++ x.row entry.name))
      solveEntries o directory results false entries
    else
      logAll [⟨.debug, s!"Skipping non-CNF entry: {p}"⟩]
      solveEntries o directory results isFirst entries

/-- The entries of a directory by name. The order of code points is that of their UTF-8
bytes. -/
def sortEntries (entries : List DirectoryEntry) : List DirectoryEntry :=
  entries.mergeSort fun a b => a.name ≤ b.name

/-- Solves the DIMACS files of a directory and writes their results into it. -/
def solveDirectory (o : Options) (p : Path) : CommandM μ Unit := do
  unless ← ask (Host.isDirectory p) do throw (.notDirectory p)
  let results := p.join "results.csv"
  attempt .unwrittenResults (Host.createFile results)
  let entries ← ask (Host.entries p)
  solveEntries o p results true (sortEntries entries)

/-! ### Conversion -/

/-- Writes a formula in negation normal form as DIMACS text. The output is opened once the input
is read and encoded. -/
def convert (o : Options) (input output : Option Path) : CommandM μ Unit := do
  let text ← readText (match input with
    | some p => Host.readFile p
    | none => Host.readInput)
  let t ← encode o text
  let written := t.cnf.toDimacs (some t.root)
  match output with
  | none => ask (Host.print written)
  | some p =>
    attempt .inaccessible (Host.createFile p)
    attempt .inaccessible (Host.appendFile p written)

end CommandM

open CommandM

variable {μ : Type → Type} [Monad μ] [Host μ]

/-- The program of a command. -/
def Command.program (o : Options) : Command → CommandM μ Unit
  | .path p => do
    if ← ask (Host.isDirectory p) then solveDirectory o p else solveFile o p
  | .file p => solveFile o p
  | .text formula => solveText o formula
  | .directory p => solveDirectory o p
  | .convert input output => CommandM.convert o input output

/-- Runs a command and logs its failure. The exit code tells whether it failed. -/
def Command.run (c : Command) (o : Options) : μ UInt32 := do
  match ← (c.program o : CommandM μ Unit).run with
  | .ok () => return 0
  | .error failure =>
    Host.log ⟨.error, failure.message⟩
    return 1

end Dpll
