import Dpll.Assignment
import Dpll.VariableTable
import Std.Data.HashMap

/-! Formulas in negation normal form. Negation stands on variables only, so a formula is
monotone in its literals. Names are turned into variables in order of first appearance. -/

namespace Dpll

/-- A formula in negation normal form over variables of type `α`. -/
inductive Nnf (α : Type u) where
  | var (a : α)
  | neg (a : α)
  | and (left right : Nnf α)
  | or (left right : Nnf α)
deriving DecidableEq, Repr

namespace Nnf

/-- The truth value of a formula. -/
def evaluate (value : α → Bool) : Nnf α → Bool
  | var a => value a
  | neg a => !value a
  | and l r => l.evaluate value && r.evaluate value
  | or l r => l.evaluate value || r.evaluate value

/-- The variables of a formula from left to right, with repetitions. -/
def leaves : Nnf α → List α
  | var a => [a]
  | neg a => [a]
  | and l r => l.leaves ++ r.leaves
  | or l r => l.leaves ++ r.leaves

/-- The formula and its parts, each before its own parts and the left ones before the right. -/
def nodes : Nnf α → List (Nnf α)
  | var a => [var a]
  | neg a => [neg a]
  | and l r => and l r :: (l.nodes ++ r.nodes)
  | or l r => or l r :: (l.nodes ++ r.nodes)

end Nnf

/-- The variables given to names so far. -/
structure Naming where
  table : VariableTable
  /-- The variable of every name met. -/
  known : Std.HashMap String Variable

namespace Naming

/-- No name was met. -/
def empty : Naming := ⟨.empty, ∅⟩

/-- The variable of a name: the known one, or a new one. -/
def intern (s : Naming) (name : String) : Variable × Naming :=
  match s.known[name]? with
  | some v => (v, s)
  | none =>
    (s.table.next,
      ⟨s.table.push (some name), s.known.insert name s.table.next⟩)

/-- Turns the names of a formula into variables, from left to right. -/
def internAll (s : Naming) : Nnf String → Nnf Variable × Naming
  | .var name =>
    let (v, s) := s.intern name
    (.var v, s)
  | .neg name =>
    let (v, s) := s.intern name
    (.neg v, s)
  | .and l r =>
    let (l, s) := s.internAll l
    let (r, s) := s.internAll r
    (.and l r, s)
  | .or l r =>
    let (l, s) := s.internAll l
    let (r, s) := s.internAll r
    (.or l r, s)

end Naming

/-- A formula with the table of its variables. -/
structure NnfTree where
  root : Nnf Variable
  table : VariableTable
deriving DecidableEq, Repr

/-- Numbers the names of a formula in order of first appearance. -/
def NnfTree.ofNames (f : Nnf String) : NnfTree :=
  let (root, naming) := Naming.empty.internAll f
  ⟨root, naming.table⟩

/-- The truth value of the formula under an assignment; a variable without a value is false. -/
def NnfTree.evaluate (t : NnfTree) (a : Assignment) : Bool :=
  t.root.evaluate fun v => (a.value? v).getD false

end Dpll
