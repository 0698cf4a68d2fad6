import Dpll.Heuristic
import Dpll.Path
import Dpll.Representation
import Dpll.Tseitin

/-! What the command line can ask for. -/

namespace Dpll

/-- How a formula is to be read, solved and reported. -/
structure Options where
  watchedLiterals : Bool := false
  /-- Whether operators are encoded by equivalences. -/
  equivalence : Bool := false
  heuristic : HeuristicName := .default
  /-- Where the random heuristic starts. -/
  seed : UInt64 := 0
  debug : Bool := false
  /-- Whether a model that was found is checked. -/
  verify : Bool := true
  /-- Whether a table of statistics follows the answer. -/
  statistics : Bool := true
  printModel : Bool := false
deriving DecidableEq, Repr

namespace Options

/-- The representation to be searched. -/
def representation (o : Options) : Representation := .ofWatched o.watchedLiterals

/-- The encoding of operators. -/
def encoding (o : Options) : Encoding := .ofEquivalence o.equivalence

/-- The heuristic before its first decision. -/
def start (o : Options) : Heuristic := .ofName o.heuristic o.seed

end Options

/-- A job for the solver. -/
inductive Command where
  /-- Solves a directory if there is one at the path, and otherwise a file. -/
  | path (p : Path)
  | file (p : Path)
  /-- Solves a formula in negation normal form, by default the first line of the input. -/
  | text (formula : Option String)
  | directory (p : Path)
  /-- Encodes a formula in negation normal form as DIMACS text; the input and the output stand
  in for files that are not given. -/
  | convert (input output : Option Path)
deriving DecidableEq, Repr

/-- The shells that completions are written for. -/
inductive Shell where
  | bash
  | elvish
  | fish
  | powershell
  | zsh
deriving DecidableEq, Repr

namespace Shell

/-- The name as it is written. -/
def toText : Shell → String
  | bash => "bash"
  | elvish => "elvish"
  | fish => "fish"
  | powershell => "powershell"
  | zsh => "zsh"

/-- All shells. -/
def all : List Shell := [bash, elvish, fish, powershell, zsh]

/-- The shell with the given name, written exactly so. -/
def ofText? (text : String) : Option Shell := all.find? fun s => s.toText = text

end Shell

/-- A question about the program itself. -/
inductive Inquiry where
  | help
  | version
  /-- How a shell completes command lines of the program. -/
  | completions (shell : Shell)
deriving DecidableEq, Repr

/-- What a command line asks for as a whole. -/
inductive Invocation where
  | inquire (question : Inquiry)
  | run (command : Command) (options : Options)
deriving DecidableEq, Repr

end Dpll
