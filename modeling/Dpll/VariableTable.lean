import Dpll.Literal

/-! The variables of a formula, numbered in order of creation and optionally named. -/

namespace Dpll

/-- The name of every variable, `none` for a variable without one. -/
structure VariableTable where
  names : Array (Option String)
deriving DecidableEq, Repr

namespace VariableTable

/-- The table without variables. -/
def empty : VariableTable := ⟨#[]⟩

/-- The table of `n` variables named `1` to `n`. -/
def numbered (n : Nat) : VariableTable := ⟨.ofFn fun i : Fin n => some (toString (i.val + 1))⟩

/-- The number of variables. -/
def size (t : VariableTable) : Nat := t.names.size

/-- Whether `v` is a variable of the table. -/
def contains (t : VariableTable) (v : Variable) : Bool := v.toNat < t.size

/-- The variables of the table in order. -/
def toList (t : VariableTable) : List Variable :=
  (List.range t.size).map fun i => ⟨UInt32.ofNat i⟩

/-- The name of a variable, if it is in the table and has one. -/
def name? (t : VariableTable) (v : Variable) : Option String := (t.names[v.toNat]?).join

/-- The index that the next variable will have. -/
def next (t : VariableTable) : Variable := ⟨UInt32.ofNat t.size⟩

/-- Adds a variable at the end. -/
def push (t : VariableTable) (name : Option String) : VariableTable := ⟨t.names.push name⟩

/-- The named variables in order, each with its name. -/
def named (t : VariableTable) : List (Variable × String) :=
  t.toList.filterMap fun v => (t.name? v).map (v, ·)

theorem size_numbered (n : Nat) : (numbered n).size = n := Array.size_ofFn

theorem names_numbered (n : Nat) :
    (numbered n).names.toList = (List.range n).map fun i => some (toString (i + 1)) := by
  refine List.ext_getElem (by simp [numbered]) fun i hi hi' => ?_
  simp [numbered]

end VariableTable

end Dpll
