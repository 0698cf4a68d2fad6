import Dpll.Text.Control
import Dpll.Text.Words

/-! Log entries, and how many of them are wanted. Severities are ordered from errors to traces;
a verbosity admits everything up to one of them, or nothing. -/

namespace Dpll

/-- How grave an entry is, the gravest first. -/
inductive Severity where
  | error
  | warn
  | info
  | debug
  | trace
deriving DecidableEq, Repr

namespace Severity

/-- The place in the order, counted from one. -/
def rank : Severity → Nat
  | error => 1
  | warn => 2
  | info => 3
  | debug => 4
  | trace => 5

/-- The name as it is written. -/
def toText : Severity → String
  | error => "ERROR"
  | warn => "WARN"
  | info => "INFO"
  | debug => "DEBUG"
  | trace => "TRACE"

/-- All severities in order. -/
def all : List Severity := [error, warn, info, debug, trace]

/-- The severity with the given name, in any case. -/
def ofText? (text : String) : Option Severity := all.find? fun s => s.toText = text.toUpper

end Severity

/-- A message with its severity. -/
structure LogEntry where
  severity : Severity
  message : String
deriving DecidableEq, Repr

/-- An entry as it is written: its severity stands ahead of the first line of the message, and
further lines are indented. Entries are made to be read, so they hold no control functions; one
that is left open hides what follows it, and may hide the end of the line. -/
def LogEntry.text (e : LogEntry) : String :=
  let message := e.message.toList.flatMap fun c => if c == '\n' then "\n    ".toList else [c]
  String.ofList (Text.plain (e.severity.toText.toList ++ ' ' :: message ++ ['\n']))

/-- The least grave severity that is logged; with none, nothing is. -/
structure Verbosity where
  least : Option Severity
deriving DecidableEq, Repr

namespace Verbosity

/-- Whether entries of the given severity are logged. -/
def admits (v : Verbosity) (s : Severity) : Bool := v.least.any fun least => s.rank ≤ least.rank

/-- What a setting asks for: a severity by name, errors if it is blank, and nothing if it is any
other word. -/
def ofSetting (text : String) : Verbosity :=
  let word := String.ofList (Text.trim text.toList)
  if word.isEmpty then ⟨some .error⟩ else ⟨Severity.ofText? word⟩

/-- The verbosity of a run: as the setting says, and without one up to debug messages if they
are asked for and up to information if not. -/
def choose (setting : Option String) (debug : Bool) : Verbosity :=
  match setting with
  | some text => ofSetting text
  | none => ⟨some (if debug then .debug else .info)⟩

end Verbosity

end Dpll
