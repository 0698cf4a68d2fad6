import Dpll.Cnf
import Mathlib.Algebra.Group.Nat.Defs

/-! Total truth assignments, and what it means for them to satisfy literals and formulas. A
literal is determined by its variable and its sign (`Literal.ext_var`), so two literals of one
variable are equal or opposite (`Literal.eq_or_eq_neg`). -/

namespace Dpll

/-- A truth value for every variable. -/
abbrev Valuation := Variable → Bool

namespace Literal

variable {a b l : Literal} {v : Valuation}

/-- The valuation makes the literal true. -/
def Holds (v : Valuation) (l : Literal) : Prop := v l.var = l.isPositive

theorem toNat_var_lt (l : Literal) : l.var.toNat < 2 ^ 31 := by
  have hcode : l.code.toNat < 2 ^ 32 := l.code.toNat_lt
  rw [toNat_var]
  omega

theorem isPositive_eq (l : Literal) : l.isPositive = decide (l.code.toNat % 2 = 0) := by
  have hand : (l.code &&& 1).toNat = l.code.toNat % 2 := by
    rw [UInt32.toNat_and]
    exact Nat.and_one_is_mod _
  rw [isPositive, Bool.eq_iff_iff, beq_iff_eq, decide_eq_true_eq, ← UInt32.toNat_inj, hand]
  rfl

theorem toNat_code_neg (l : Literal) : (-l).code.toNat = l.code.toNat ^^^ 1 := by
  rw [neg_eq, negate, UInt32.toNat_xor]
  rfl

@[simp]
theorem isPositive_neg (l : Literal) : (-l).isPositive = !l.isPositive := by
  have hodd : (l.code.toNat ^^^ 1) % 2 = 1 ↔ ¬ (l.code.toNat % 2 = 1 ↔ 1 % 2 = 1) :=
    Nat.xor_mod_two_eq_one
  rw [isPositive_eq, isPositive_eq, toNat_code_neg, ← decide_not, decide_eq_decide]
  omega

theorem ext_var (hv : a.var = b.var) (hs : a.isPositive = b.isPositive) : a = b := by
  have hdiv : a.code.toNat / 2 = b.code.toNat / 2 := by
    rw [← toNat_var, ← toNat_var, hv]
  rw [isPositive_eq, isPositive_eq, decide_eq_decide] at hs
  rcases a with ⟨a⟩
  rcases b with ⟨b⟩
  congr 1
  apply UInt32.toNat_inj.mp
  dsimp only at hdiv hs
  omega

theorem eq_or_eq_neg (hv : a.var = b.var) : a = b ∨ a = -b := by
  cases hs : a.isPositive == b.isPositive with
  | true => exact .inl (ext_var hv (beq_iff_eq.mp hs))
  | false =>
    refine .inr (ext_var (by rw [hv, var_neg]) ?_)
    cases ha : a.isPositive <;> cases hb : b.isPositive <;> simp [ha, hb] at hs ⊢

theorem neg_ne_self (l : Literal) : -l ≠ l := by
  intro h
  have hs := isPositive_neg l
  rw [h] at hs
  cases hl : l.isPositive <;> simp [hl] at hs

theorem holds_neg : (-l).Holds v ↔ ¬ l.Holds v := by
  rw [Holds, Holds, var_neg, isPositive_neg]
  cases v l.var <;> cases l.isPositive <;> simp

end Literal

namespace Variable

variable {x y : Variable} {b : Bool}

theorem toNat_inj (h : x.toNat = y.toNat) : x = y := by
  cases x
  cases y
  exact congrArg mk (UInt32.toNat_inj.mp h)

theorem toNat_code_literal (x : Variable) (b : Bool) :
    (x.literal b).code.toNat = 2 * (x.toNat % 2 ^ 31) + if b then 0 else 1 := by
  have hbit : (if b then 0 else 1 : UInt32).toNat < 2 ^ 1 := by cases b <;> decide
  have hshift : x.toNat <<< 1 % 2 ^ 32 = (x.toNat % 2 ^ 31) <<< 1 := by
    rw [Nat.shiftLeft_eq, Nat.shiftLeft_eq]
    omega
  calc (x.literal b).code.toNat
      = x.toNat <<< 1 % 2 ^ 32 ||| (if b then 0 else 1 : UInt32).toNat := by
        rw [literal, UInt32.toNat_or, UInt32.toNat_shiftLeft]
        rfl
    _ = (x.toNat % 2 ^ 31) <<< 1 + (if b then 0 else 1 : UInt32).toNat := by
        rw [hshift, Nat.shiftLeft_add_eq_or_of_lt hbit]
    _ = 2 * (x.toNat % 2 ^ 31) + if b then 0 else 1 := by
        rw [Nat.shiftLeft_eq, Nat.mul_comm]
        cases b <;> rfl

/-- Variables whose indices differ in the highest bit only have the same literals. -/
theorem toNat_var_literal (x : Variable) (b : Bool) :
    (x.literal b).var.toNat = x.toNat % 2 ^ 31 := by
  rw [Literal.toNat_var, toNat_code_literal]
  cases b
  · simp
    omega
  · simp

example : literal ⟨2 ^ 31⟩ true = literal ⟨0⟩ true := by decide

theorem toNat_var_literal_lt {n : Nat} (h : x.toNat < n) : (x.literal b).var.toNat < n := by
  rw [toNat_var_literal]
  exact Nat.lt_of_le_of_lt (Nat.mod_le _ _) h

theorem var_literal (h : x.toNat < 2 ^ 31) : (x.literal b).var = x :=
  toNat_inj ((toNat_var_literal x b).trans (Nat.mod_eq_of_lt h))

@[simp]
theorem isPositive_literal (x : Variable) (b : Bool) : (x.literal b).isPositive = b := by
  rw [Literal.isPositive_eq, toNat_code_literal]
  cases b <;> simp

end Variable

/-- The values of the variables as their literals show them. -/
def Valuation.shown (v : Valuation) : Valuation := fun x => v (x.literal true).var

theorem Valuation.shown_eq {v : Valuation} {x : Variable} (h : x.toNat < 2 ^ 31) :
    v.shown x = v x := by
  rw [shown, Variable.var_literal h]

theorem Variable.holds_literal {v : Valuation} {x : Variable} {b : Bool} :
    (x.literal b).Holds v ↔ v.shown x = b := by
  have hvar : (x.literal b).var = (x.literal true).var :=
    toNat_inj (by rw [toNat_var_literal, toNat_var_literal])
  rw [Literal.Holds, hvar, isPositive_literal, Valuation.shown]

namespace BoundedLiteral

variable {n : Nat} {a b l : BoundedLiteral n}

theorem neg_ne_self (l : BoundedLiteral n) : -l ≠ l := fun h =>
  Literal.neg_ne_self l.toLiteral (congrArg toLiteral h)

theorem neg_inj : -a = -b ↔ a = b := by
  refine ⟨fun h => ?_, congrArg _⟩
  rw [← neg_neg a, h, neg_neg]

theorem position_eq_iff : a.position = b.position ↔ a = b ∨ a = -b := by
  constructor
  · intro h
    have hv : a.var = b.var := Variable.toNat_inj (congrArg (fun p : Fin n => p.val) h)
    rcases Literal.eq_or_eq_neg hv with h | h
    · exact .inl (ext h)
    · exact .inr (ext h)
  · rintro (rfl | rfl)
    · rfl
    · exact position_neg b

end BoundedLiteral

/-- The valuation satisfies every clause of the formula. -/
def Cnf.Models (f : Cnf) (v : Valuation) : Prop := ∀ c ∈ f.clauses, ∃ l ∈ c, l.Holds v

/-- The valuation satisfies every one of the clauses. -/
def Models {n : Nat} (cs : List (List (BoundedLiteral n))) (v : Valuation) : Prop :=
  ∀ c ∈ cs, ∃ l ∈ c, l.Holds v

end Dpll
