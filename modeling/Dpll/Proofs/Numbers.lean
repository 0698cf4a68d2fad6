import Dpll.Proofs.Valuation

/-! The DIMACS numbers of literals. Every number but zero is that of the literal it denotes
(`Literal.number_of_ofNumber?`), and every literal is denoted by its number, one literal of the last
variable apart (`Literal.ofNumber?_number`, `Literal.reread_eq`). -/

namespace Dpll

namespace Literal

variable {l : Literal} {n : Int32}

theorem number_eq (l : Literal) : l.number =
    if l.isPositive then Int32.ofNat (l.var.toNat + 1) else -Int32.ofNat (l.var.toNat + 1) := by
  have hvar : l.var.index + 1 = UInt32.ofNat (l.var.toNat + 1) := by
    rw [UInt32.ofNat_add, Variable.toNat, UInt32.ofNat_toNat]
    rfl
  rw [number, Variable.number, hvar, UInt32.toInt32_ofNat']

theorem toInt_number (h : l.var.toNat + 1 < 2 ^ 31) : l.number.toInt =
    if l.isPositive then (l.var.toNat + 1 : Int) else -(l.var.toNat + 1 : Int) := by
  rw [number_eq]
  split
  · rw [Int32.toInt_ofNat_of_lt h, Int.natCast_succ]
  · rw [← Int32.ofInt_eq_ofNat, ← Int32.ofInt_neg, Int32.toInt_ofInt_of_le (by omega) (by omega),
      Int.natCast_succ]

/-- This includes the last variable, whose literals both have the least number there is. -/
theorem natAbs_number (l : Literal) : l.number.toInt.natAbs = l.var.toNat + 1 := by
  have hlt := l.toNat_var_lt
  rcases Nat.lt_or_ge (l.var.toNat + 1) (2 ^ 31) with h | h
  · rw [toInt_number h]
    split <;> omega
  · have hlast : l.var.toNat + 1 = 2 ^ 31 := by omega
    rw [number_eq, hlast]
    split <;> decide

theorem pos_number_iff :
    0 < l.number ↔ l.isPositive = true ∧ l.var.toNat + 1 < 2 ^ 31 := by
  have hlt := l.toNat_var_lt
  rw [Int32.lt_iff_toInt_lt, Int32.toInt_zero]
  rcases Nat.lt_or_ge (l.var.toNat + 1) (2 ^ 31) with h | h
  · rw [toInt_number h]
    cases l.isPositive with
    | true => simp only [if_true, true_and, h, iff_true]; omega
    | false => simp only [Bool.false_eq_true, if_false, false_and, iff_false]; omega
  · have hlast : l.var.toNat + 1 = 2 ^ 31 := by omega
    rw [number_eq, hlast]
    cases l.isPositive <;> decide

@[simp]
theorem ofNumber?_zero : ofNumber? 0 = none := rfl

theorem ofNumber?_of_ne (h : n ≠ 0) : ofNumber? n =
    some (Variable.literal ⟨UInt32.ofNat (n.toInt.natAbs - 1)⟩ (0 < n)) := if_neg h

/-- The literal of a number has the variable one below it and its sign. -/
theorem of_ofNumber? (h : ofNumber? n = some l) :
    l.var.toNat + 1 = n.toInt.natAbs ∧ l.isPositive = decide (0 < n) := by
  have hne : n ≠ 0 := by
    rintro rfl
    cases h
  have hint : n.toInt ≠ 0 := fun hn => hne (Int32.toInt_inj.mp hn)
  have hle := Int32.le_toInt n
  have hlt := Int32.toInt_lt n
  rw [ofNumber?_of_ne hne] at h
  obtain rfl := Option.some.inj h
  have hindex : (UInt32.ofNat (n.toInt.natAbs - 1)).toNat = n.toInt.natAbs - 1 :=
    UInt32.toNat_ofNat_of_lt' (show _ < 2 ^ 32 by omega)
  have hvar : (⟨UInt32.ofNat (n.toInt.natAbs - 1)⟩ : Variable).toNat < 2 ^ 31 := by
    rw [Variable.toNat, hindex]
    omega
  refine ⟨?_, Variable.isPositive_literal ..⟩
  rw [Variable.var_literal hvar, Variable.toNat, hindex]
  omega

theorem number_of_ofNumber? (h : ofNumber? n = some l) : l.number = n := by
  obtain ⟨hvar, hsign⟩ := of_ofNumber? h
  rw [number_eq, hvar, hsign, ← Int32.ofInt_eq_ofNat]
  by_cases hpos : 0 < n
  · have hint : 0 < n.toInt := Int32.lt_iff_toInt_lt.mp hpos
    rw [if_pos (decide_eq_true hpos), Int.natAbs_of_nonneg (by omega), Int32.ofInt_toInt]
  · have hint : ¬ 0 < n.toInt := fun hn => hpos (Int32.lt_iff_toInt_lt.mpr hn)
    rw [if_neg (by simpa using hpos), ← Int32.ofInt_neg, Int.ofNat_natAbs_of_nonpos (by omega),
      Int.neg_neg, Int32.ofInt_toInt]

/-- What is read where the number of the literal is written: the literal itself, but for the last variable
always the negative one. -/
def reread (l : Literal) : Literal :=
  l.var.literal (l.isPositive && decide (l.var.toNat + 1 < 2 ^ 31))

theorem var_reread (l : Literal) : l.reread.var = l.var := Variable.var_literal l.toNat_var_lt

theorem isPositive_reread (l : Literal) :
    l.reread.isPositive = (l.isPositive && decide (l.var.toNat + 1 < 2 ^ 31)) :=
  Variable.isPositive_literal ..

theorem reread_eq (h : l.var.toNat + 1 < 2 ^ 31) : l.reread = l :=
  ext_var (var_reread l) (by rw [isPositive_reread, decide_eq_true h, Bool.and_true])

theorem ofNumber?_number (l : Literal) : ofNumber? l.number = some l.reread := by
  have habs := natAbs_number l
  have hne : l.number ≠ 0 := by
    intro hzero
    rw [hzero] at habs
    simp at habs
  obtain ⟨l', hl'⟩ : ∃ l', ofNumber? l.number = some l' := ⟨_, ofNumber?_of_ne hne⟩
  obtain ⟨hvar, hsign⟩ := of_ofNumber? hl'
  rw [habs] at hvar
  have hvar' : l'.var = l.reread.var :=
    (Variable.toNat_inj (Nat.succ_inj.mp hvar)).trans (var_reread l).symm
  have heq : l' = l.reread := ext_var hvar' <| by
    rw [hsign, isPositive_reread, Bool.eq_iff_iff, decide_eq_true_eq, pos_number_iff,
      Bool.and_eq_true, decide_eq_true_eq]
  rw [hl', heq]

example : ofNumber? (Variable.literal ⟨2 ^ 31 - 1⟩ true).number =
    some (Variable.literal ⟨2 ^ 31 - 1⟩ false) := by decide

end Literal

namespace Clause

variable {n : Int32} {ns : List Int32} {c : Clause}

theorem map_number_ofNumbers (h : 0 ∉ ns) : (ofNumbers ns).map Literal.number = ns := by
  induction ns with
  | nil => rfl
  | cons n ns ih =>
    rw [List.mem_cons, not_or] at h
    have hn := Literal.ofNumber?_of_ne (Ne.symm h.1)
    rw [ofNumbers, List.filterMap_cons_some hn, List.map_cons, Literal.number_of_ofNumber? hn]
    exact congrArg _ (ih h.2)

end Clause

end Dpll
