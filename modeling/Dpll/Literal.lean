/-! Variables and literals. A literal is one 32-bit code: twice the index of its variable, plus
one if it is negative. A literal and its negation are therefore neighbours in every table that
is indexed by code, and negation flips the lowest bit. -/

namespace Dpll

/-- A propositional variable, given by its index counted from zero. -/
structure Variable where
  index : UInt32
deriving DecidableEq, Hashable, Repr, Inhabited

/-- A variable or its negation, packed into one code. -/
structure Literal where
  code : UInt32
deriving DecidableEq, Hashable, Repr, Inhabited

namespace Variable

/-- The index as a natural number. -/
def toNat (v : Variable) : Nat := v.index.toNat

/-- The number of a variable in DIMACS text, one more than its index. -/
def number (v : Variable) : UInt32 := v.index + 1

/-- The literal of `v` with the given sign. The code has 32 bits, so the highest bit of the
index is lost. -/
def literal (v : Variable) (positive : Bool) : Literal :=
  ⟨v.index <<< 1 ||| if positive then 0 else 1⟩

end Variable

namespace Literal

/-- The variable of a literal. -/
def var (l : Literal) : Variable := ⟨l.code >>> 1⟩

/-- Whether the literal asserts its variable. -/
def isPositive (l : Literal) : Bool := l.code &&& 1 == 0

/-- The literal of the same variable with the opposite sign. -/
def negate (l : Literal) : Literal := ⟨l.code ^^^ 1⟩

instance : Neg Literal := ⟨negate⟩

/-- The signed DIMACS number of a literal, in 32-bit arithmetic. -/
def number (l : Literal) : Int32 :=
  let n := l.var.number.toInt32
  if l.isPositive then n else -n

/-- The literal with the given DIMACS number; zero stands for none. -/
def ofNumber? (n : Int32) : Option Literal :=
  if n = 0 then none
  else some (Variable.literal ⟨UInt32.ofNat (n.toInt.natAbs - 1)⟩ (0 < n))

instance : ToString Literal := ⟨fun l => toString l.number.toInt⟩

/-- Literals in increasing order of code: by variable, the positive literal first. -/
def sort (ls : List Literal) : List Literal := ls.mergeSort fun a b => a.code ≤ b.code

theorem neg_eq (l : Literal) : -l = l.negate := rfl

@[simp]
theorem neg_neg (l : Literal) : - -l = l := by
  simp only [neg_eq, negate, UInt32.xor_assoc, UInt32.xor_self, UInt32.xor_zero]

@[simp]
theorem var_neg (l : Literal) : (-l).var = l.var := by
  simp only [neg_eq, var, negate, Variable.mk.injEq, ← UInt32.toBitVec_inj]
  ext i hi
  simp

theorem toNat_var (l : Literal) : l.var.toNat = l.code.toNat / 2 := by
  simp [var, Variable.toNat, UInt32.toNat_shiftRight, Nat.shiftRight_eq_div_pow]

theorem toNat_code_lt {l : Literal} {n : Nat} (h : l.var.toNat < n) : l.code.toNat < 2 * n := by
  rw [toNat_var] at h
  omega

end Literal

end Dpll
