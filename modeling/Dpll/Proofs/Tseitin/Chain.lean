import Dpll.Proofs.Nnf.Chain
import Dpll.Proofs.Tseitin

/-! The clausal form of chains of conjunctions, where the variables that have literals of their own run
out. Every conjunction takes one more variable (`Encoding.encode_chain`), and where the last operator has
the literals of a variable of the formula, the clauses say of this what they say of the operator
(`NnfTree.not_models_chain_or_not`). Variables of the formula can have the same literals, too; then the
clauses do not speak of the last one (`NnfTree.models_row`, `NnfTree.not_evaluate_row`). -/

namespace Dpll

variable {w : Valuation} {t x y : Variable} {as : List Variable} {e : Encoding} {d : Draft}
  {f : Nnf Variable} {k n : Nat}

/-- A literal shows the index of its variable without the highest bit. -/
theorem Valuation.shown_congr (h : x.toNat % 2 ^ 31 = y.toNat % 2 ^ 31) : w.shown x = w.shown y :=
  congrArg w (Variable.toNat_inj (by rw [Variable.toNat_var_literal, Variable.toNat_var_literal, h]))

/-- Only the clauses of negations are without a positive literal. -/
theorem Encoding.exists_isPositive (e : Encoding) (t l r : Variable) :
    ∀ c ∈ e.andClauses t l r, ∃ x ∈ c, x.isPositive = true := by
  cases e <;> simp [andClauses, whenEquivalent]

namespace Draft

theorem standIn_operator (hf : ∀ v, f ≠ .var v) (d : Draft) :
    d.standIn f = (d.table.next, { d with table := d.table.push none }) := by
  cases f with
  | var v => exact absurd rfl (hf v)
  | neg | and | or => rfl

/-- `t` is the last variable made so far. -/
def IsLast (d : Draft) (t : Variable) : Prop := t.toNat + 1 = d.table.size

theorem isLast_push {n : Nat} (hn : d.table.size + 1 ≤ n) (hsize : n ≤ 2 ^ 32) :
    IsLast { d with table := d.table.push none } d.table.next := by
  rw [IsLast, VariableTable.size_push, VariableTable.toNat_next (by omega)]

end Draft

namespace Encoding

theorem ne_var_chain (hf : ∀ v, f ≠ .var v) (as : List Variable) : ∀ v, Nnf.chain as f ≠ .var v := by
  cases as with
  | nil => exact hf
  | cons => exact fun _ => nofun

/-- Encoding a chain comes to encoding the formula at its end, with a variable more for each conjunction
and clauses with positive literals. -/
theorem encode_chain (hf : ∀ v, f ≠ .var v) (e : Encoding) (as : List Variable) (ht : d.IsLast t)
    (hsize : d.table.size + as.length ≤ 2 ^ 32) : ∃ t' d',
      e.encode t (.chain as f) d = e.encode t' f d' ∧ d'.IsLast t' ∧
        d'.table.size = d.table.size + as.length ∧
        ∀ c ∈ d'.clauses, c ∈ d.clauses ∨ ∃ x ∈ c, x.isPositive = true := by
  induction as generalizing t d with
  | nil => exact ⟨t, d, rfl, ht, rfl, fun c hc => .inl hc⟩
  | cons a as ih =>
    let next := d.table.next
    let d₁ : Draft := { d with table := d.table.push none }.add (e.andClauses t a next)
    have hvar : d.standIn (.var a) = (a, d) := rfl
    have hstep : e.encode t (.chain (a :: as) f) d = e.encode next (.chain as f) d₁ := by
      simp only [Nnf.chain, encode, hvar, Draft.standIn_operator (ne_var_chain hf as)]
      rfl
    have hsize₁ : d₁.table.size = d.table.size + 1 := VariableTable.size_push
    rw [List.length_cons] at hsize ⊢
    have hnext : d₁.IsLast next := Draft.isLast_push (by omega) hsize
    obtain ⟨t', d', hencode, ht', hsize', hclauses⟩ := ih hnext (by omega)
    refine ⟨t', d', hstep.trans hencode, ht', by omega, fun c hc => ?_⟩
    refine (hclauses c hc).elim (fun hc => ?_) .inr
    exact (Draft.mem_clauses_add.mp hc).imp_right (e.exists_isPositive t a next c)

theorem exists_isPositive_chain (e : Encoding) (as : List Variable) (x : Variable) :
    ∀ c ∈ (e.encode t (.chain as (.var x)) d).clauses,
      c ∈ d.clauses ∨ ∃ l ∈ c, l.isPositive = true := by
  induction as generalizing t d with
  | nil => exact fun c hc => .inl hc
  | cons a as ih =>
    intro c hc
    refine (ih c hc).elim (fun hc => ?_) .inr
    refine (Draft.mem_clauses_add.mp hc).imp (fun hc => ?_) (e.exists_isPositive _ _ _ c)
    rwa [Draft.clauses_standIn rfl] at hc

/-- A variable and its negation, of which one holds. -/
theorem encode_or_not (e : Encoding) (t x : Variable) (d : Draft) :
    e.encode t (.or (.var x) (.neg x)) d =
      ({ d with table := d.table.push none }.add (e.orClauses t x d.table.next)).add
        (e.negClauses d.table.next x) := rfl

end Encoding

namespace NnfTree

variable {d₀ : Draft} {r : Variable}

theorem encode_chain (hf : ∀ v, f ≠ .var v) (e : Encoding) (hk : k + 2 ≤ 2 ^ 32)
    (h : Draft.standIn ⟨(chain k f).table, #[]⟩ (chain k f).root = (r, d₀)) : ∃ t d,
      e.encode r (chain k f).root d₀ = e.encode t f d ∧ t.toNat = k + 1 ∧ d.table.size = k + 2 ∧
        ∀ c ∈ d.clauses, ∃ x ∈ c, x.isPositive = true := by
  rw [chain, Draft.standIn_operator (Encoding.ne_var_chain hf _)] at h
  obtain ⟨rfl, rfl⟩ := Prod.mk.inj h
  have hone : VariableTable.size ⟨#[some "a"]⟩ = 1 := rfl
  obtain ⟨t, d, hencode, ht, hsize, hclauses⟩ := Encoding.encode_chain hf e (.replicate k ⟨0⟩)
    (Draft.isLast_push (d := ⟨⟨#[some "a"]⟩, #[]⟩) (Nat.le_refl _) (by rw [hone]; decide))
    (by rw [VariableTable.size_push, hone, List.length_replicate]; omega)
  rw [VariableTable.size_push, hone, List.length_replicate] at hsize
  rw [Draft.IsLast] at ht
  refine ⟨t, d, hencode, by omega, by omega, fun c hc => (hclauses c hc).resolve_left (by simp)⟩

section

variable (hk : k + 2 = 2 ^ 31)
include hk

/-! ### Chains that end in a variable or its negation -/

theorem numVars_chain_or_not (e : Encoding) :
    ((chain k (.or (.var ⟨0⟩) (.neg ⟨0⟩))).toClauses e).cnf.numVars = 2 ^ 31 + 1 := by
  obtain ⟨t, d, hencode, -, hsize, -⟩ := encode_chain (f := .or (.var ⟨0⟩) (.neg ⟨0⟩)) (k := k)
    (fun _ => nofun) e (by omega) rfl
  rw [numVars_toClauses rfl, hencode, Encoding.encode_or_not, Draft.table_add, Draft.table_add,
    VariableTable.size_push]
  omega

/-- The last operator has the literals of the variable it negates. -/
theorem shown_of_models_chain_or_not
    (h : Draft.standIn ⟨(chain k (.or (.var ⟨0⟩) (.neg ⟨0⟩))).table, #[]⟩
      (chain k (.or (.var ⟨0⟩) (.neg ⟨0⟩))).root = (r, d₀))
    (hw : (e.encode r (chain k (.or (.var ⟨0⟩) (.neg ⟨0⟩))).root d₀).Models w) :
    w.shown ⟨0⟩ = false ∧ e ≠ .equivalences := by
  obtain ⟨t, d, hencode, -, hsize, -⟩ := encode_chain (f := .or (.var ⟨0⟩) (.neg ⟨0⟩)) (k := k)
    (fun _ => nofun) e (by omega) h
  rw [hencode, Encoding.encode_or_not, Draft.models_add] at hw
  have hnext : d.table.next.toNat = 2 ^ 31 := by
    rw [VariableTable.toNat_next (by omega)]
    omega
  have hshown : w.shown d.table.next = w.shown ⟨0⟩ := Valuation.shown_congr (by rw [hnext]; decide)
  obtain ⟨hsound, hcomplete⟩ := ((Encoding.gate_neg e _ _).holds w).mp hw.2
  rw [hshown] at hsound hcomplete
  cases hzero : w.shown ⟨0⟩ with
  | true => simp [hzero] at hsound
  | false => simpa [hzero] using hcomplete

theorem not_models_chain_or_not : ¬((chain k (.or (.var ⟨0⟩) (.neg ⟨0⟩))).toClauses e).cnf.Models w := by
  intro hw
  have hfalse := (shown_of_models_chain_or_not hk rfl ((models_toClauses rfl).mp hw).1).1
  have htrue := (Nnf.evaluate_chain.mp (evaluate_of_models hw)).1 ⟨0⟩
    (List.mem_replicate.mpr ⟨by omega, rfl⟩)
  rw [hfalse] at htrue
  cases htrue

theorem verify_chain_or_not (e : Encoding) (a : Assignment) :
    ((chain k (.or (.var ⟨0⟩) (.neg ⟨0⟩))).toClauses e).cnf.verify a = false :=
  Bool.eq_false_iff.mpr fun ha =>
    not_models_chain_or_not hk (Cnf.models_of_verify ha fun _ _ => Assignment.toValuation_eq)

/-! ### Chains that end in a negation -/

end

/-! ### Rows -/

/-- Where all variables with literals of their own are true, the clauses of a row of variables hold. -/
theorem models_row (n : Nat) (e : Encoding) :
    ((row n).toClauses e).cnf.Models fun v => v.toNat < 2 ^ 31 := by
  intro c hc
  have hpositive : ∃ l ∈ c, l.isPositive = true := by
    rw [mem_toClauses rfl, Draft.mem_clauses_add, List.mem_singleton] at hc
    rcases hc with hc | rfl
    · rw [row, Nnf.map_chain] at hc
      refine (e.exists_isPositive_chain _ _ c hc).resolve_left ?_
      rw [Draft.clauses_standIn rfl]
      exact Array.not_mem_empty c
    · exact ⟨_, List.mem_singleton_self _, Variable.isPositive_literal ..⟩
  obtain ⟨l, hl, hl'⟩ := hpositive
  exact ⟨l, hl, (decide_eq_true l.toNat_var_lt).trans hl'.symm⟩

/-- A longer row needs a variable without literals of its own. -/
theorem not_evaluate_row {v : Variable → Bool} (hn : 2 ^ 31 ≤ n)
    (hv : v ⟨UInt32.ofNat (2 ^ 31)⟩ = false) : ¬(row n).root.evaluate v = true := by
  intro h
  have htrue := evaluate_row.mp h (2 ^ 31) (Nat.lt_succ_of_le hn)
  rw [hv] at htrue
  cases htrue

end NnfTree

end Dpll
