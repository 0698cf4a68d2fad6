import Dpll.Cnf

/-! Writing DIMACS text. Comments ahead of the header list the named variables with their
numbers and, if it is known, the variable that stands for the root of an encoded formula. -/

namespace Dpll

namespace Cnf

/-- The named variables with their numbers, in one line. -/
def namesLine (f : Cnf) : String :=
  ", ".intercalate (f.table.named.map fun (v, name) => s!"{name}: {v.number}")

/-- The comments ahead of the header. -/
def comments (f : Cnf) (root : Option Variable) : String :=
  let names := f.namesLine
  (if names.isEmpty then "" else s!"c Encoding of original variables:\nc {names}\n") ++
    match root with
    | none => ""
    | some v => s!"c Variable corresponding to the root node: {v.number}\n"

/-- The DIMACS text of a formula. -/
def toDimacs (f : Cnf) (root : Option Variable) : String := f.comments root ++ toString f

end Cnf

end Dpll
