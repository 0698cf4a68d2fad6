import Dpll.Cnf
import Dpll.Nnf.Reader

/-! The clausal form of formulas in negation normal form. Every operator gets a new variable
that implies it; with equivalences it is implied by it as well. Negation stands on variables
only, so the implications suffice for satisfiability. The last clause asserts the variable of
the whole formula. -/

namespace Dpll

/-- Whether the variable of an operator implies it, or is equivalent to it. -/
inductive Encoding where
  | implications
  | equivalences
deriving DecidableEq, Repr

/-- The equivalences if they are asked for. -/
def Encoding.ofEquivalence (equivalence : Bool) : Encoding :=
  if equivalence then equivalences else implications

/-- The variables and clauses made so far. -/
structure Draft where
  table : VariableTable
  clauses : Array Clause

namespace Draft

/-- Adds clauses at the end. -/
def add (d : Draft) (clauses : List Clause) : Draft :=
  { d with clauses := d.clauses.appendList clauses }

/-- The variable that stands for a formula: a new unnamed one for an operator. -/
def standIn (d : Draft) : Nnf Variable → Variable × Draft
  | .var v => (v, d)
  | _ => (d.table.next, { d with table := d.table.push none })

end Draft

namespace Encoding

/-- The clauses that are part of equivalences only. -/
def whenEquivalent (e : Encoding) (clauses : List Clause) : List Clause :=
  match e with
  | implications => []
  | equivalences => clauses

/-- The clauses that tie `t` to the negation of `x`. -/
def negClauses (e : Encoding) (t x : Variable) : List Clause :=
  e.whenEquivalent [[t.literal true, x.literal true]] ++ [[t.literal false, x.literal false]]

/-- The clauses that tie `t` to the conjunction of `l` and `r`. -/
def andClauses (e : Encoding) (t l r : Variable) : List Clause :=
  e.whenEquivalent [[l.literal false, r.literal false, t.literal true]] ++
    [[t.literal false, l.literal true], [t.literal false, r.literal true]]

/-- The clauses that tie `t` to the disjunction of `l` and `r`. -/
def orClauses (e : Encoding) (t l r : Variable) : List Clause :=
  e.whenEquivalent [[l.literal false, t.literal true], [r.literal false, t.literal true]] ++
    [[t.literal false, l.literal true, r.literal true]]

/-- Adds the clauses of a formula for which `t` stands. Both parts of an operator get their
variables before either is encoded. -/
def encode (e : Encoding) (t : Variable) : Nnf Variable → Draft → Draft
  | .var _, d => d
  | .neg x, d => d.add (e.negClauses t x)
  | .and left right, d =>
    let (l, d) := d.standIn left
    let (r, d) := d.standIn right
    e.encode r right (e.encode l left (d.add (e.andClauses t l r)))
  | .or left right, d =>
    let (l, d) := d.standIn left
    let (r, d) := d.standIn right
    e.encode r right (e.encode l left (d.add (e.orClauses t l r)))

end Encoding

/-- A formula in clauses, with the formula it came from. -/
structure ClausalForm where
  cnf : Cnf
  /-- The variable that stands for the whole formula. -/
  root : Variable
  tree : Nnf Variable
  /-- The number of variables of the formula; they come before all others. -/
  numInputs : Nat

namespace ClausalForm

/-- The variables of the formula. -/
def inputs (t : ClausalForm) : List Variable :=
  (List.range t.numInputs).map fun i => ⟨UInt32.ofNat i⟩

/-- The variables that stand for operators. -/
def auxiliary (t : ClausalForm) : List Variable :=
  (List.range' t.numInputs (t.cnf.numVars - t.numInputs)).map fun i => ⟨UInt32.ofNat i⟩

end ClausalForm

/-- The clausal form of a formula. -/
def NnfTree.toClauses (tree : NnfTree) (e : Encoding) : ClausalForm :=
  let (root, draft) := Draft.standIn ⟨tree.table, #[]⟩ tree.root
  let draft := (e.encode root tree.root draft).add [[root.literal true]]
  { cnf := ⟨draft.table, draft.clauses.toList⟩
    root
    tree := tree.root
    numInputs := tree.table.size }

/-- Reads a formula and brings it into clausal form. -/
def ClausalForm.read (e : Encoding) (text : String) : Except NnfError ClausalForm :=
  match NnfTree.read text with
  | .error err => .error err
  | .ok tree => .ok (tree.toClauses e)

end Dpll
