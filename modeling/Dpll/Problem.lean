import Dpll.Cnf
import Dpll.Path
import Dpll.Text.Numeral

/-! A formula to be solved, together with the form it was read from, which decides how its
models are shown. -/

namespace Dpll

/-- The forms in which formulas are written. -/
inductive Format where
  | dimacs
  | nnf
deriving DecidableEq, Repr

/-- The form of a file, by its extension. -/
def Format.ofPath? (p : Path) : Option Format :=
  match p.extension? with
  | some "cnf" => some dimacs
  | some "sat" => some nnf
  | _ => none

/-- A formula ready to be solved. -/
structure Problem where
  cnf : Cnf
  format : Format
deriving DecidableEq, Repr

namespace Problem

/-- The place of a name among the variables of DIMACS text: its number if it is one, and
otherwise after all numbers. -/
def rank (name : String) : Nat := (Text.unsigned? UInt64.size name.toList).getD (UInt64.size - 1)

/-- The literals of named variables with their names, as they are listed: in the order of their
numbers for DIMACS text, and otherwise in the given order. -/
def named (p : Problem) (model : List Literal) : List (Literal × String) :=
  let pairs := model.filterMap fun l => (p.cnf.table.name? l.var).map (l, ·)
  match p.format with
  | .dimacs => pairs.mergeSort fun a b => rank a.2 ≤ rank b.2
  | .nnf => pairs

/-- The named literals of a model, a minus sign before the name of each false variable. -/
def modelText (p : Problem) (model : List Literal) : String :=
  ", ".intercalate ((p.named model).map fun (l, name) =>
    if l.isPositive then name else "-" ++ name)

/-- Whether literals taken as true satisfy the formula. -/
def accepts (p : Problem) (model : List Literal) : Bool :=
  (Assignment.ofLiterals? p.cnf.numVars model).any p.cnf.verify

end Problem

end Dpll
