import Dpll.CommandLine.Parameter

/-! Texts about the command line itself. -/

namespace Dpll

/-- The name and version of the program. -/
def versionText : String := "dpll-sat 0.1.0\n"

/-- How a parameter with dashes is written. -/
def Parameter.usage (p : Parameter) : String :=
  let letter := (p.letter?.map fun c => String.ofList ['-', c, ',', ' ']).getD "    "
  letter ++ p.toText ++ if p.isFlag then "" else " <VALUE>"

/-- What a parameter does, in a few words. -/
def Parameter.about : Parameter → String
  | watchedLiterals => "Use two watched literals instead of adjacency lists"
  | equivalence => "Encode operators by equivalences instead of implications"
  | heuristic => "take-first, random or jeroslow-wang"
  | seed => "Seed of the random heuristic"
  | debug => "Log at debug level"
  | verify => "Whether a found model is checked"
  | statistics => "Whether statistics are printed"
  | printModel => "Print the model of a satisfiable formula"
  | path => "File or directory to solve"
  | formula => "Formula to solve; a line of the standard input by default"
  | input => "Formula to convert; the standard input by default"
  | output => "File to write; the standard output by default"
  | problem => "File or directory to solve"
  | shell => "bash, elvish, fish, powershell or zsh"

/-- The help text. -/
def helpText : String :=
  let line (p : Parameter) : String := s!"  {p.usage}\n          {p.about}\n"
  String.join
    ["A DPLL SAT solver\n\n",
      "Usage: dpll-sat [OPTIONS] [PATH] [COMMAND]\n\n",
      "Commands:\n",
      "  file         Solve a .cnf (DIMACS) or .sat (NNF) file\n",
      "  text         Solve an NNF formula\n",
      "  dir          Solve the .cnf files of a directory and write results.csv into it\n",
      "  convert      Encode an NNF formula as DIMACS\n",
      "  completions  Write a shell completion script\n",
      "  help         Print this text\n\n",
      "Options:\n",
      String.join (Parameter.common.map line),
      "  -h, --help\n          Print this text\n",
      "  -V, --version\n          Print the version\n"]

/-- The words that a shell may offer. -/
def completionWords : List String :=
  Scope.subcommands.filterMap Scope.name? ++ ["help"] ++
    Parameter.common.map Parameter.toText ++ ["--help", "--version"]

/-- The completion script for a shell. -/
def Shell.script (s : Shell) : String :=
  let spaced := " ".intercalate completionWords
  let quoted := ", ".intercalate (completionWords.map fun word => s!"'{word}'")
  match s with
  | bash => s!"complete -o default -W \"{spaced}\" dpll-sat\n"
  | elvish =>
    "set edit:completion:arg-completer[dpll-sat] = \x7b|@words| put " ++ spaced ++ " \x7d\n"
  | fish => s!"complete -c dpll-sat -a \"{spaced}\"\n"
  | powershell =>
    "Register-ArgumentCompleter -Native -CommandName 'dpll-sat' -ScriptBlock \x7b " ++ quoted ++
      " \x7d\n"
  | zsh => s!"#compdef dpll-sat\n_values 'dpll-sat' {spaced}\n"

/-- The text that answers a question. -/
def Inquiry.answer : Inquiry → String
  | help => helpText
  | version => versionText
  | completions shell => shell.script

end Dpll
