import Dpll.CommandLine.Options
import Dpll.Text.Numeral

/-! The parameters of the command line: how each is written, where it is allowed and which
values it takes. -/

namespace Dpll

/-- What can be given on a command line. -/
inductive Parameter where
  | watchedLiterals
  | equivalence
  | heuristic
  | seed
  | debug
  | verify
  | statistics
  | printModel
  /-- The file or directory of a subcommand. -/
  | path
  /-- The formula of the text subcommand. -/
  | formula
  | input
  | output
  /-- The file or directory to solve without a subcommand. -/
  | problem
  | shell
deriving DecidableEq, Repr

namespace Parameter

/-- The name after two dashes; operands have none. -/
def name? : Parameter → Option String
  | watchedLiterals => some "watched-literals"
  | equivalence => some "equivalence"
  | heuristic => some "heuristic"
  | seed => some "seed"
  | debug => some "debug"
  | verify => some "verify"
  | statistics => some "stats"
  | printModel => some "print-solution"
  | path => some "path"
  | formula => some "input"
  | input => some "input"
  | output => some "output"
  | problem => none
  | shell => none

/-- The letter after one dash. -/
def letter? : Parameter → Option Char
  | watchedLiterals => some 'w'
  | equivalence => some 'e'
  | debug => some 'd'
  | printModel => some 'p'
  | formula => some 'i'
  | input => some 'i'
  | output => some 'o'
  | _ => none

/-- Whether the parameter is given without a value. -/
def isFlag : Parameter → Bool
  | watchedLiterals | equivalence | debug | printModel => true
  | _ => false

/-- The parameter as it is named in messages. -/
def toText (p : Parameter) : String :=
  match p.name?, p with
  | some name, _ => "--" ++ name
  | none, shell => "<SHELL>"
  | none, _ => "[PATH]"

/-- The parameters of all solving commands. -/
def common : List Parameter :=
  [watchedLiterals, equivalence, heuristic, seed, debug, verify, statistics, printModel]

end Parameter

/-- A part of the command line with parameters of its own: the program or a subcommand. -/
inductive Scope where
  | program
  | file
  | text
  | directory
  | convert
  | completions
deriving DecidableEq, Repr

namespace Scope

/-- The word that opens a subcommand. -/
def name? : Scope → Option String
  | program => none
  | file => some "file"
  | text => some "text"
  | directory => some "dir"
  | convert => some "convert"
  | completions => some "completions"

/-- The subcommands. -/
def subcommands : List Scope := [file, text, directory, convert, completions]

/-- The subcommand that a word opens. -/
def ofText? (word : String) : Option Scope := subcommands.find? fun s => s.name? = some word

/-- The parameters that are written with dashes. -/
def parameters : Scope → List Parameter
  | program => Parameter.common
  | file => .path :: Parameter.common
  | text => .formula :: Parameter.common
  | directory => .path :: Parameter.common
  | convert => .input :: .output :: Parameter.common
  | completions => []

/-- The parameter that is given by position. -/
def operand? : Scope → Option Parameter
  | program => some .problem
  | completions => some .shell
  | _ => none

end Scope

/-- The values that have been given. -/
structure Settings where
  options : Options := {}
  path : Option Path := none
  formula : Option String := none
  input : Option Path := none
  output : Option Path := none
  shell : Option Shell := none
deriving DecidableEq, Repr

namespace Settings

/-- A path is anything but the empty text. -/
def path? (value : String) : Option Path := if value.isEmpty then none else some ⟨value⟩

/-- A truth value, written out. -/
def truth? : String → Option Bool
  | "true" => some true
  | "false" => some false
  | _ => none

/-- Gives a parameter a value, if it can take it. -/
def set? (s : Settings) (p : Parameter) (value : String) : Option Settings :=
  let o := s.options
  match p with
  | .watchedLiterals => some { s with options := { o with watchedLiterals := true } }
  | .equivalence => some { s with options := { o with equivalence := true } }
  | .debug => some { s with options := { o with debug := true } }
  | .printModel => some { s with options := { o with printModel := true } }
  | .heuristic =>
    (HeuristicName.ofText? value).map fun h => { s with options := { o with heuristic := h } }
  | .seed =>
    (Text.unsigned? UInt64.size value.toList).map fun n =>
      { s with options := { o with seed := UInt64.ofNat n } }
  | .verify => (truth? value).map fun b => { s with options := { o with verify := b } }
  | .statistics => (truth? value).map fun b => { s with options := { o with statistics := b } }
  | .path | .problem => (path? value).map fun p => { s with path := some p }
  | .formula => some { s with formula := some value }
  | .input => (path? value).map fun p => { s with input := some p }
  | .output => (path? value).map fun p => { s with output := some p }
  | .shell => (Shell.ofText? value).map fun shell => { s with shell := some shell }

end Settings

end Dpll
