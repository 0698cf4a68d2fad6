import Dpll.Literal

/-! Partial assignments of truth values to the first `n` variables. A literal of a variable
outside the assignment has no value, and setting one is refused. -/

namespace Dpll

/-- A truth value for each of the first variables, or none. -/
structure Assignment where
  values : Array (Option Bool)
deriving DecidableEq, Repr

namespace Assignment

/-- The assignment of `n` variables that fixes none of them. -/
def unassigned (n : Nat) : Assignment := ⟨.replicate n none⟩

/-- The number of variables, fixed or not. -/
def size (a : Assignment) : Nat := a.values.size

/-- The value of a variable, if it has one. -/
def value? (a : Assignment) (v : Variable) : Option Bool := (a.values[v.toNat]?).join

/-- The value of a literal, if its variable has one. -/
def literalValue? (a : Assignment) (l : Literal) : Option Bool :=
  (a.value? l.var).map (· == l.isPositive)

/-- Makes a literal true, whatever its variable was before; refused outside the variables. -/
def assign? (a : Assignment) (l : Literal) : Option Assignment :=
  if l.var.toNat < a.size then some ⟨a.values.setIfInBounds l.var.toNat (some l.isPositive)⟩
  else none

/-- The assignment of `n` variables that makes the literals true, a later one overruling an
earlier one. -/
def ofLiterals? (n : Nat) (ls : List Literal) : Option Assignment :=
  ls.foldlM assign? (unassigned n)

/-- The true literals, by variable. -/
def toLiterals (a : Assignment) : List Literal :=
  a.values.toList.zipIdx.filterMap fun (value, i) =>
    value.map (Variable.literal ⟨UInt32.ofNat i⟩)

instance : ToString Assignment :=
  ⟨fun a => " ".intercalate (a.toLiterals.map toString)⟩

end Assignment

end Dpll
