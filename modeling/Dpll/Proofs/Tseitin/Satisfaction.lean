import Dpll.Proofs.Sources
import Dpll.Proofs.Tseitin.Chain

/-! Assignments that verify the clausal form of a formula against those that make the formula true
(`NnfTree.verify_toClauses`). Literals have room for `2 ^ 31` variables. With one more the clauses can be
without a model although the formula has one, and be verified by an assignment that makes the formula
false (`NnfTree.not_verify_toClauses_chain`). -/

namespace Dpll.NnfTree

variable {tree : NnfTree} {e : Encoding}

/-- What verifies the clauses makes the formula true, whatever becomes of variables it leaves open. -/
theorem evaluate_of_verify {a b : Assignment} (htree : tree.InRange)
    (hsize : tree.table.size ≤ 2 ^ 31) (ha : (tree.toClauses e).cnf.verify a = true)
    (hab : a.Agrees tree.table.size b) : tree.evaluate b = true := by
  -- `b` fills in what `a` leaves open
  let w : Valuation := fun v => ((a.value? v).or (b.value? v)).getD false
  have hw : (tree.toClauses e).cnf.Models w :=
    Cnf.models_of_verify ha fun x y hx => by simp only [w, hx, Option.some_or, Option.getD_some]
  rw [← evaluate_of_models hw]
  refine Nnf.evaluate_congr fun v hv => ?_
  rw [Valuation.shown_eq (Nat.lt_of_lt_of_le (htree v hv) hsize)]
  cases hx : a.value? v with
  | none => simp only [w, hx, Option.none_or]
  | some x => simp only [w, hx, hab v (htree v hv) x hx, Option.some_or]

theorem exists_verify {a : Assignment} (htree : tree.InRange)
    (hsize : (tree.toClauses e).cnf.numVars ≤ 2 ^ 31) (ha : tree.evaluate a = true) :
    ∃ b, b.size = (tree.toClauses e).cnf.numVars ∧ b.Total (tree.toClauses e).cnf.numVars ∧
      a.Agrees tree.table.size b ∧ (tree.toClauses e).cnf.verify b = true := by
  obtain ⟨w, hag, hw⟩ := exists_models htree hsize (w := a.toValuation) ha
  refine ⟨.ofValuation _ w, Assignment.size_ofValuation .., Assignment.total_ofValuation _ _,
    fun v hv x hx => ?_, hw.verify (inRange_toClauses htree hsize)⟩
  rw [Assignment.value?_ofValuation (Nat.lt_of_lt_of_le hv (size_le_numVars tree e)), hag v hv,
    Assignment.toValuation_eq hx]

/-- A formula that was read and its clausal form say the same of the formula's own variables. As long as
literals have room for these, an assignment that verifies the clauses makes the formula true, and so does
every assignment that agrees with it on them. With room for all variables of the clauses, an assignment
that makes the formula true can be extended to one that verifies the clauses. -/
theorem verify_toClauses {text : String} (h : read text = .ok tree) (e : Encoding) :
    (tree.table.size ≤ 2 ^ 31 → ∀ a b, (tree.toClauses e).cnf.verify a = true →
        a.Agrees tree.table.size b → tree.evaluate b = true) ∧
      ((tree.toClauses e).cnf.numVars ≤ 2 ^ 31 →
        (∀ a, tree.evaluate a = true →
          ∃ b, b.size = (tree.toClauses e).cnf.numVars ∧ b.Total (tree.toClauses e).cnf.numVars ∧
            a.Agrees tree.table.size b ∧ (tree.toClauses e).cnf.verify b = true) ∧
        ((∃ a, (tree.toClauses e).cnf.verify a = true) ↔ ∃ a, tree.evaluate a = true)) := by
  have hsound (hinputs : tree.table.size ≤ 2 ^ 31) (a b)
      (ha : (tree.toClauses e).cnf.verify a = true) :
      a.Agrees tree.table.size b → tree.evaluate b = true :=
    evaluate_of_verify (inRange_read h (Nat.le_trans hinputs (by decide))) hinputs ha
  refine ⟨hsound, fun hsize => ?_⟩
  have hinputs : tree.table.size ≤ 2 ^ 31 := Nat.le_trans (size_le_numVars tree e) hsize
  have htree : tree.InRange := inRange_read h (Nat.le_trans hinputs (by decide))
  refine ⟨fun a => exists_verify htree hsize, ?_, ?_⟩
  · rintro ⟨a, ha⟩
    exact ⟨a, hsound hinputs a a ha (.refl _ _)⟩
  · rintro ⟨a, ha⟩
    obtain ⟨b, _, _, _, hb⟩ := exists_verify htree hsize ha
    exact ⟨b, hb⟩

theorem verify_toClauses_or_not : ∃ tree, read "(or a (not b))" = .ok tree ∧
    (tree.toClauses .implications).cnf.numVars ≤ 2 ^ 31 ∧
    (∀ a b, (tree.toClauses .implications).cnf.verify a = true → a.Agrees 2 b →
      tree.evaluate b = true) ∧
    ∃ b, b.size = 4 ∧ b.Total 4 ∧ Assignment.Agrees 2 ⟨#[some true, some true]⟩ b ∧
      (tree.toClauses .implications).cnf.verify b = true := by
  obtain ⟨hsound, hcomplete⟩ := verify_toClauses read_or_not .implications
  exact ⟨_, read_or_not, by decide, hsound (by decide), (hcomplete (by decide)).1 _ (by decide)⟩

theorem exists_verify_row {n : Nat} (hn : 2 ^ 31 ≤ n) (e : Encoding) : ∃ a : Assignment,
    a.size = ((row n).toClauses e).cnf.numVars ∧ a.Total ((row n).toClauses e).cnf.numVars ∧
      ((row n).toClauses e).cnf.verify a = true ∧ (row n).evaluate a = false := by
  have hsize : (row n).table.size = n + 1 := VariableTable.size_numbered _
  have hnumVars := size_le_numVars (row n) e
  refine ⟨.ofValuation _ _, Assignment.size_ofValuation .., Assignment.total_ofValuation _ _,
    (models_row n e).verify (Cnf.inRange_of_le (by omega)), ?_⟩
  refine Bool.eq_false_iff.mpr (not_evaluate_row hn ?_)
  rw [Assignment.value?_ofValuation]
  · rfl
  · exact Nat.lt_of_lt_of_le (show 2 ^ 31 < n + 1 by omega) (hsize ▸ hnumVars)

/-- A formula of one variable, in whose clauses there are `2 ^ 31 + 1`: it can be satisfied, and they
cannot. And a formula of `2 ^ 31 + 1` variables, whose clauses are verified by an assignment that makes it
false. -/
theorem not_verify_toClauses_chain :
    (∃ tree, read (Nnf.chainText (.replicate (2 ^ 31 - 2) "a") "(or a (not a))") = .ok tree ∧
      tree.table.size = 1 ∧ tree.evaluate ⟨#[some true]⟩ = true ∧
      ∀ e, (tree.toClauses e).cnf.numVars = 2 ^ 31 + 1 ∧
        ∀ a, (tree.toClauses e).cnf.verify a = false) ∧
    ∃ tree, read (rowText (2 ^ 31)) = .ok tree ∧ tree.table.size = 2 ^ 31 + 1 ∧
      ∀ e, ∃ a : Assignment, a.size = (tree.toClauses e).cnf.numVars ∧
        a.Total (tree.toClauses e).cnf.numVars ∧ (tree.toClauses e).cnf.verify a = true ∧
        tree.evaluate a = false :=
  ⟨⟨_, read_chain_or_not _, rfl, evaluate_chain_or_not rfl _,
    fun e => ⟨numVars_chain_or_not rfl e, verify_chain_or_not rfl e⟩⟩,
    _, read_rowText _, VariableTable.size_numbered _, exists_verify_row (Nat.le_refl _)⟩

end Dpll.NnfTree
