import Dpll.Proofs.Trail
import Mathlib.Data.Set.List

/-! Formulas whose literals are in range, and the assignment that a trail stands for. A formula in
range has bounded clauses that say the same (`Cnf.models_iff`); an assignment built from a consistent
trail makes its literals true (`Assignment.exists_ofLiterals?`), so it verifies what the trail
satisfies. -/

namespace Dpll

private theorem mapM_eq_some_iff {α : Type u} {β : Type v} {g : α → Option β} {h : β → α}
    (hg : ∀ a b, g a = some b ↔ h b = a) {as : List α} {bs : List β} :
    as.mapM g = some bs ↔ bs.map h = as := by
  induction as generalizing bs with
  | nil => simp [eq_comm]
  | cons a as ih =>
    simp only [List.mapM_cons, Option.bind_eq_bind, Option.bind_eq_some_iff, Option.pure_def,
      Option.some.injEq, hg, ih]
    constructor
    · rintro ⟨b, rfl, bs, rfl, rfl⟩
      rfl
    · cases bs with
      | nil => simp
      | cons b bs =>
        intro hbs
        obtain ⟨hb, hbs⟩ := List.cons.inj hbs
        exact ⟨b, hb, bs, hbs, rfl⟩

theorem BoundedLiteral.ofLiteral?_eq_some_iff {n : Nat} {l : Literal} {b : BoundedLiteral n} :
    ofLiteral? n l = some b ↔ b.toLiteral = l := by
  unfold ofLiteral?
  constructor
  · intro h
    split at h
    · rw [← Option.some.inj h]
    · cases h
  · rintro rfl
    rw [dif_pos b.var_lt]

namespace Assignment

variable {n : Nat} {a : Assignment} {ls : List (BoundedLiteral n)} {l x : BoundedLiteral n}

/-- Later literals of other variables leave the value of a variable alone. -/
private theorem foldlM_assign? (ls : List (BoundedLiteral n)) (ha : a.size = n) :
    ∃ b, (ls.map (·.toLiteral)).foldlM assign? a = some b ∧
      (∀ x : BoundedLiteral n, x.position ∉ ls.map (·.position) → b.value? x.var = a.value? x.var) ∧
      (Trail.Consistent ls → ∀ l ∈ ls, b.value? l.var = some l.isPositive) := by
  induction ls generalizing a with
  | nil => exact ⟨a, rfl, fun _ _ => rfl, fun _ _ h => by simp at h⟩
  | cons l ls ih =>
    have hlt : l.var.toNat < a.size := ha.symm ▸ l.var_lt
    have hvalue (x : BoundedLiteral n) :
        value? ⟨a.values.setIfInBounds l.var.toNat (some l.isPositive)⟩ x.var =
          if l.position = x.position then some l.isPositive else a.value? x.var := by
      simp only [value?, Array.getElem?_setIfInBounds, BoundedLiteral.position, Fin.mk.injEq]
      by_cases h : l.var.toNat = x.var.toNat
      · rw [h] at hlt
        simp [h, show x.var.toNat < a.values.size from hlt]
      · simp [h]
    obtain ⟨b, hb, hother, hmem⟩ := ih
      (a := ⟨a.values.setIfInBounds l.var.toNat (some l.isPositive)⟩) (by simpa [size] using ha)
    refine ⟨b, ?_, fun x hx => ?_, fun hls y hy => ?_⟩
    · rw [List.map_cons, List.foldlM_cons, assign?, if_pos hlt]
      exact hb
    · rw [List.map_cons, List.mem_cons, not_or] at hx
      rw [hother x hx.2, hvalue, if_neg (Ne.symm hx.1)]
    · obtain ⟨hl, hls⟩ := List.nodup_cons.mp hls
      rcases List.mem_cons.mp hy with rfl | hy
      · rw [hother y hl, hvalue, if_pos rfl]
      · exact hmem hls y hy

/-- The assignment of a consistent trail makes its literals true. -/
theorem exists_ofLiterals? (hls : Trail.Consistent ls) :
    ∃ a, ofLiterals? n (ls.map (·.toLiteral)) = some a ∧
      ∀ l ∈ ls, a.literalValue? l.toLiteral = some true := by
  obtain ⟨a, ha, _, hvalue⟩ := foldlM_assign? (a := unassigned n) ls (by simp [size, unassigned])
  refine ⟨a, ha, fun l hl => ?_⟩
  rw [literalValue?, hvalue hls l hl]
  simp

/-- No literal of the variables is refused, whatever the order and however often it comes. -/
theorem exists_ofLiterals?_eq (ls : List (BoundedLiteral n)) :
    ∃ a, ofLiterals? n (ls.map (·.toLiteral)) = some a := by
  obtain ⟨a, ha, -⟩ := foldlM_assign? (a := unassigned n) ls (by simp [size, unassigned])
  exact ⟨a, ha⟩

/-- `b` fixes those of the first `n` variables that `a` fixes, and in the same way. -/
def Agrees (n : Nat) (a b : Assignment) : Prop :=
  ∀ v : Variable, v.toNat < n → ∀ x, a.value? v = some x → b.value? v = some x

/-- The first `n` variables are fixed. -/
def Total (n : Nat) (a : Assignment) : Prop :=
  ∀ v : Variable, v.toNat < n → (a.value? v).isSome = true

/-- The assignment of `n` variables that fixes them all as the valuation does. -/
def ofValuation (n : Nat) (w : Valuation) : Assignment :=
  ⟨.ofFn fun i : Fin n => some (w ⟨UInt32.ofNat i⟩)⟩

/-- The valuation under which variables that are not fixed are false. -/
def toValuation (a : Assignment) : Valuation := fun v => (a.value? v).getD false

/-- The assignments that fix each of `n` variables. -/
def totals (n : Nat) : Set Assignment := {a | a.size = n ∧ a.Total n}

/-- The assignment of the first `n` variables. -/
def restrict (n : Nat) (a : Assignment) : Assignment := ⟨a.values.extract 0 n⟩

theorem Agrees.refl (n : Nat) (a : Assignment) : a.Agrees n a := fun _ _ _ => id

theorem size_ofValuation (n : Nat) (w : Valuation) : (ofValuation n w).size = n := Array.size_ofFn

theorem value?_ofValuation {w : Valuation} {v : Variable} (hv : v.toNat < n) :
    (ofValuation n w).value? v = some (w v) := by
  have hv' : (⟨UInt32.ofNat v.toNat⟩ : Variable) = v := congrArg Variable.mk UInt32.ofNat_toNat
  simp [value?, ofValuation, hv, hv']

theorem total_ofValuation (n : Nat) (w : Valuation) : (ofValuation n w).Total n := fun v hv => by
  rw [value?_ofValuation hv]
  rfl

theorem toValuation_eq {v : Variable} {x : Bool} (h : a.value? v = some x) :
    a.toValuation v = x := by
  rw [toValuation, h]
  rfl

theorem ofValuation_mem_totals (n : Nat) (w : Valuation) : ofValuation n w ∈ totals n :=
  ⟨size_ofValuation n w, total_ofValuation n w⟩

theorem value?_restrict {v : Variable} (hv : v.toNat < n) : (a.restrict n).value? v = a.value? v := by
  rw [value?, restrict, Array.getElem?_extract, value?]
  by_cases h : v.toNat < a.values.size
  · rw [if_pos (by omega), Nat.zero_add]
  · rw [if_neg (by omega), Array.getElem?_eq_none (by omega)]

theorem restrict_mem_totals {m : Nat} (ha : a ∈ totals n) (hm : m ≤ n) : a.restrict m ∈ totals m := by
  refine ⟨?_, fun v hv => ?_⟩
  · have hsize : a.values.size = n := ha.1
    simp [size, restrict, hsize, hm]
  · rw [value?_restrict hv]
    exact ha.2 v (Nat.lt_of_lt_of_le hv hm)

/-- An assignment is determined by its size and its values, as far as there are indices. -/
theorem ext_value {b : Assignment} (ha : a.size = n) (hb : b.size = n) (hn : n ≤ 2 ^ 32)
    (h : ∀ v : Variable, v.toNat < n → a.value? v = b.value? v) : a = b := by
  obtain ⟨as⟩ := a
  obtain ⟨bs⟩ := b
  simp only [size] at ha hb
  refine congrArg mk (Array.ext (ha.trans hb.symm) fun i hi hi' => ?_)
  have hindex : Variable.toNat ⟨UInt32.ofNat i⟩ = i :=
    UInt32.toNat_ofNat_of_lt' (show i < 2 ^ 32 by omega)
  have hvalue := h ⟨UInt32.ofNat i⟩ (by omega)
  simpa [value?, hindex, hi, hi'] using hvalue

end Assignment

namespace Cnf

variable {f : Cnf} {cs : List (List (BoundedLiteral f.numVars))} {v : Valuation} {a : Assignment}
  {A : Trail f.numVars}

theorem bounded?_eq_some_iff : f.bounded? = some cs ↔ cs.map (List.map (·.toLiteral)) = f.clauses :=
  mapM_eq_some_iff fun _ _ => mapM_eq_some_iff fun _ _ => BoundedLiteral.ofLiteral?_eq_some_iff

/-- A formula in range has bounded clauses. -/
theorem exists_bounded? (hf : f.InRange) : ∃ cs, f.bounded? = some cs := by
  have hclause : ∀ c ∈ f.clauses, c ∈ Set.range (List.map fun l : BoundedLiteral f.numVars =>
      l.toLiteral) := by
    intro c hc
    rw [Set.range_list_map]
    exact fun l hl => ⟨⟨l, hf c hc l hl⟩, rfl⟩
  have hclauses : f.clauses ∈ Set.range (List.map (List.map fun l : BoundedLiteral f.numVars =>
      l.toLiteral)) := by
    rw [Set.range_list_map]
    exact hclause
  obtain ⟨cs, hcs⟩ := hclauses
  exact ⟨cs, bounded?_eq_some_iff.mpr hcs⟩

theorem models_iff (h : f.bounded? = some cs) : f.Models v ↔ Dpll.Models cs v := by
  rw [Models, ← bounded?_eq_some_iff.mp h, List.forall_mem_map, Dpll.Models]
  simp

/-- A valuation satisfies what an assignment verifies, if it has the values the assignment fixes. -/
theorem models_of_verify (h : f.verify a = true) (hv : ∀ x b, a.value? x = some b → v x = b) :
    f.Models v := by
  intro c hc
  obtain ⟨l, hl, htrue⟩ := List.any_eq_true.mp (List.all_eq_true.mp h c hc)
  obtain ⟨b, hb, hsign⟩ := Option.map_eq_some_iff.mp (beq_iff_eq.mp htrue)
  exact ⟨l, hl, (hv l.var b hb).trans (beq_iff_eq.mp hsign)⟩

/-- A valuation that satisfies a formula in range makes an assignment that verifies it. -/
theorem Models.verify (hv : f.Models v) (hf : f.InRange) :
    f.verify (.ofValuation f.numVars v) = true := by
  refine List.all_eq_true.mpr fun c hc => ?_
  obtain ⟨l, hl, htrue⟩ := hv c hc
  refine List.any_eq_true.mpr ⟨l, hl, ?_⟩
  rw [Assignment.literalValue?, Assignment.value?_ofValuation (hf c hc l hl), htrue]
  simp

/-- A trail that satisfies every clause is verified. -/
theorem verify_of_satisfies (h : f.bounded? = some cs) (hA : ∀ c ∈ cs, A.Satisfies c)
    (ha : ∀ l ∈ A, a.literalValue? l.toLiteral = some true) : f.verify a = true := by
  rw [verify, ← bounded?_eq_some_iff.mp h, List.all_map, List.all_eq_true]
  intro c hc
  obtain ⟨l, hl, htrue⟩ := hA c hc
  refine List.any_eq_true.mpr ⟨l.toLiteral, List.mem_map_of_mem hl, ?_⟩
  rw [ha l htrue, beq_self_eq_true]

end Cnf

end Dpll
