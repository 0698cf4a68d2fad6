import Dpll.Assignment
import Dpll.Literal.Bounded
import Dpll.VariableTable

/-! Formulas in conjunctive normal form over a table of variables. A formula is in range when
every literal is one of a variable in the table; `Cnf.ofTable?` accepts exactly those clause
lists, and only those formulas can be searched (`Cnf.bounded?`). -/

namespace Dpll

/-- A disjunction of literals, in order and with repetitions. -/
abbrev Clause := List Literal

namespace Clause

/-- The clause of the given DIMACS numbers, zeros left out. -/
def ofNumbers (ns : List Int32) : Clause := ns.filterMap Literal.ofNumber?

/-- Whether some literal of the clause is true. -/
def isSatisfiedBy (c : Clause) (a : Assignment) : Bool :=
  c.any fun l => a.literalValue? l == some true

/-- The clause as a line of DIMACS text, ended by a zero. -/
def toLine (c : Clause) : String := " ".intercalate (c.map toString ++ ["0"])

end Clause

/-- A conjunction of clauses over the variables of a table. -/
structure Cnf where
  table : VariableTable
  clauses : List Clause
deriving DecidableEq, Repr

/-- The first literal that is out of range: the number of its clause, counted from zero, its
variable, and how many variables there are. -/
structure UnknownVariable where
  clause : Nat
  var : Variable
  numVars : Nat

/-- The text of an out-of-range report. -/
def UnknownVariable.message (e : UnknownVariable) : String :=
  s!"clause {e.clause} references variable {e.var.index}, but only {e.numVars} variables exist"

namespace Cnf

/-- The number of variables. -/
def numVars (f : Cnf) : Nat := f.table.size

/-- The number of literal occurrences. -/
def numLiterals (f : Cnf) : Nat := f.clauses.flatten.length

/-- Every literal is one of a variable in the table. -/
def InRange (f : Cnf) : Prop := ∀ c ∈ f.clauses, ∀ l ∈ c, l.var.toNat < f.numVars

/-- The first literal of `clauses` whose variable is not in the table. -/
def firstUnknown? (table : VariableTable) (clauses : List Clause) :
    Option UnknownVariable :=
  clauses.zipIdx.findSome? fun (c, i) =>
    (c.find? fun l => !table.contains l.var).map fun l => ⟨i, l.var, table.size⟩

/-- The formula with the given variables and clauses, if they are in range. -/
def ofTable? (table : VariableTable) (clauses : List Clause) : Except UnknownVariable Cnf :=
  match firstUnknown? table clauses with
  | some e => .error e
  | none => .ok ⟨table, clauses⟩

/-- The formula whose clauses are lists of DIMACS numbers, over the variables `1` to the
greatest one mentioned. -/
def ofNumbers (clauses : List (List Int32)) : Cnf where
  table := .numbered ((clauses.flatten.map fun n => n.toInt.natAbs).foldl max 0)
  clauses := clauses.map Clause.ofNumbers

/-- Whether every clause has a true literal. -/
def verify (f : Cnf) (a : Assignment) : Bool := f.clauses.all fun c => c.isSatisfiedBy a

/-- The clauses with their literals checked against the table; `none` out of range. -/
def bounded? (f : Cnf) : Option (List (List (BoundedLiteral f.numVars))) :=
  f.clauses.mapM fun c => c.mapM (BoundedLiteral.ofLiteral? f.numVars)

/-- The DIMACS header and clauses, one to a line. -/
instance : ToString Cnf :=
  ⟨fun f => s!"p cnf {f.numVars} {f.clauses.length}\n" ++
    String.join (f.clauses.map fun c => c.toLine ++ "\n")⟩

end Cnf

end Dpll
