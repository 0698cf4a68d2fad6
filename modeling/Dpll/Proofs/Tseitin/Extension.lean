import Dpll.Proofs.Tseitin.Chain
import Dpll.Proofs.Tseitin.Labels
import Mathlib.Data.Set.Card

/-! The clauses of equivalences determine the variables of the operators. Without the last clause,
which asserts the root, they have a model above every assignment of the formula's variables
(`NnfTree.exists_definitions`) and only one (`NnfTree.eq_of_restrict_eq`), in which every operator's
variable has the operator's value. The models of all clauses are then in bijection with the
assignments that make the formula true. -/

namespace Dpll

variable {w w' : Valuation} {t v : Variable} {e : Encoding} {d : Draft} {tree : NnfTree}
  {a b : Assignment} {p : Variable × Nnf Variable}

/-- The formula of all clauses but the last one, which asserts the root. -/
def ClausalForm.definitions (t : ClausalForm) : Cnf := ⟨t.cnf.table, t.cnf.clauses.dropLast⟩

/-- `b` fixes all variables, those of the formula as `a` does, and satisfies the definitions. -/
def ClausalForm.Extends (t : ClausalForm) (a b : Assignment) : Prop :=
  b ∈ Assignment.totals t.cnf.numVars ∧ b.restrict t.numInputs = a ∧ t.definitions.verify b = true

namespace NnfTree

/-- The parts of the formula in the order of `Nnf.nodes`, each with the variable that stands for it
in the clausal form. -/
def labels (tree : NnfTree) (e : Encoding) : List (Variable × Nnf Variable) :=
  let (root, draft) := Draft.standIn ⟨tree.table, #[]⟩ tree.root
  e.labels root tree.root draft

theorem map_snd_labels (tree : NnfTree) (e : Encoding) :
    (tree.labels e).map Prod.snd = tree.root.nodes :=
  Encoding.map_snd_labels ..

/-- The operators of the formula have the auxiliary variables, each of them once. -/
theorem operators_labels_perm (tree : NnfTree) (e : Encoding) :
    (Encoding.operators (tree.labels e)).Perm (tree.toClauses e).auxiliary := by
  rcases h : Draft.standIn ⟨tree.table, #[]⟩ tree.root with ⟨t, d⟩
  have hlabels : tree.labels e = e.labels t tree.root d := by rw [labels, h]
  have hperm := e.fresh tree.root t d
  rwa [← Draft.made_standIn h, Draft.made_append (Draft.continues_standIn h)
    (e.continues_encode ..), ← auxiliary_eq h, ← hlabels] at hperm

theorem mem_auxiliary (hsize : (tree.toClauses e).cnf.numVars ≤ 2 ^ 32) :
    v ∈ (tree.toClauses e).auxiliary ↔
      tree.table.size ≤ v.toNat ∧ v.toNat < (tree.toClauses e).cnf.numVars := by
  have hmade : v ∈ Draft.made ⟨tree.table, #[]⟩ ⟨(tree.toClauses e).cnf.table, #[]⟩ ↔ _ :=
    Draft.mem_made hsize
  exact hmade

theorem lt_of_mem_labels (htree : tree.InRange) (hsize : (tree.toClauses e).cnf.numVars ≤ 2 ^ 32)
    (hp : p ∈ tree.labels e) : p.1.toNat < (tree.toClauses e).cnf.numVars := by
  have hnode : p.2 ∈ tree.root.nodes := map_snd_labels tree e ▸ List.mem_map_of_mem hp
  rcases Encoding.eq_var_of_mem_labels (Draft.self_standIn rfl) hp with hop | hvar
  · have hmem : p.1 ∈ Encoding.operators (tree.labels e) :=
      List.mem_map_of_mem (List.mem_filter.mpr ⟨hp, hop⟩)
    exact ((mem_auxiliary hsize).mp ((operators_labels_perm tree e).mem_iff.mp hmem)).2
  · have hleaf : p.1 ∈ p.2.leaves := hvar ▸ List.mem_singleton_self p.1
    have hlt := htree p.1 (Nnf.leaves_subset_of_mem_nodes hnode hleaf)
    exact Nat.lt_of_lt_of_le hlt (size_le_numVars tree e)

theorem definitions_toClauses (h : Draft.standIn ⟨tree.table, #[]⟩ tree.root = (t, d)) :
    (tree.toClauses e).definitions.clauses = (e.encode t tree.root d).clauses.toList := by
  simp [ClausalForm.definitions, toClauses, h, Draft.add]

theorem clauses_toClauses (tree : NnfTree) (e : Encoding) :
    (tree.toClauses e).cnf.clauses =
      (tree.toClauses e).definitions.clauses ++ [[(tree.toClauses e).root.literal true]] := by
  simp [ClausalForm.definitions, toClauses, Draft.add]

theorem models_definitions (h : Draft.standIn ⟨tree.table, #[]⟩ tree.root = (t, d)) :
    (tree.toClauses e).definitions.Models w ↔ (e.encode t tree.root d).Models w := by
  rw [Cnf.Models, definitions_toClauses h]
  simp [Draft.Models, Clause.Holds]

theorem inRange_definitions (htree : tree.InRange)
    (hsize : (tree.toClauses e).cnf.numVars ≤ 2 ^ 31) : (tree.toClauses e).definitions.InRange :=
  fun c hc => inRange_toClauses htree hsize c (List.mem_of_mem_dropLast hc)

section

variable (htree : tree.InRange) (hsize : (tree.toClauses .equivalences).cnf.numVars ≤ 2 ^ 31)
include htree hsize

/-- What satisfies the definitions gives every label the value of its part. -/
theorem value?_label (hb : b ∈ Assignment.totals (tree.toClauses .equivalences).cnf.numVars)
    (hverify : (tree.toClauses .equivalences).definitions.verify b = true)
    (hp : p ∈ tree.labels .equivalences) :
    b.value? p.1 = some (p.2.evaluate (b.restrict tree.table.size).toValuation) := by
  have hmodels : (tree.toClauses .equivalences).definitions.Models b.toValuation :=
    Cnf.models_of_verify hverify fun x y => Assignment.toValuation_eq
  have hshown := Encoding.exact b.toValuation tree.root (Draft.self_standIn rfl)
    ((models_definitions rfl).mp hmodels) p hp
  have hnode : p.2 ∈ tree.root.nodes := map_snd_labels tree .equivalences ▸ List.mem_map_of_mem hp
  have hlt := lt_of_mem_labels htree (by omega) hp
  have hinputs : p.2.evaluate b.toValuation.shown =
      p.2.evaluate (b.restrict tree.table.size).toValuation := by
    refine Nnf.evaluate_congr fun v hv => ?_
    have hv := htree v (Nnf.leaves_subset_of_mem_nodes hnode hv)
    have hle := size_le_numVars tree .equivalences
    rw [Valuation.shown_eq (by omega), Assignment.toValuation, Assignment.toValuation,
      Assignment.value?_restrict hv]
  rw [← hinputs, ← hshown, Valuation.shown_eq (by omega)]
  obtain ⟨x, hx⟩ := Option.isSome_iff_exists.mp (hb.2 p.1 hlt)
  rw [hx, Assignment.toValuation_eq hx]

/-- The definitions leave no choice above the formula's variables. -/
theorem eq_of_restrict_eq {b' : Assignment}
    (hb : b ∈ Assignment.totals (tree.toClauses .equivalences).cnf.numVars)
    (hb' : b' ∈ Assignment.totals (tree.toClauses .equivalences).cnf.numVars)
    (hverify : (tree.toClauses .equivalences).definitions.verify b = true)
    (hverify' : (tree.toClauses .equivalences).definitions.verify b' = true)
    (h : b.restrict tree.table.size = b'.restrict tree.table.size) : b = b' := by
  refine Assignment.ext_value hb.1 hb'.1 (by omega) fun v hv => ?_
  by_cases hinput : v.toNat < tree.table.size
  · rw [← Assignment.value?_restrict hinput, h, Assignment.value?_restrict hinput]
  · have haux := (mem_auxiliary (by omega)).mpr ⟨Nat.le_of_not_lt hinput, hv⟩
    obtain ⟨p, hp, rfl⟩ := List.mem_map.mp ((operators_labels_perm ..).mem_iff.mpr haux)
    have hp := (List.mem_filter.mp hp).1
    rw [value?_label htree hsize hb hverify hp, value?_label htree hsize hb' hverify' hp, h]

/-- Every assignment of the formula's variables extends to one that satisfies the definitions. -/
theorem exists_definitions (ha : a ∈ Assignment.totals tree.table.size) :
    ∃ b ∈ Assignment.totals (tree.toClauses .equivalences).cnf.numVars,
      b.restrict tree.table.size = a ∧
        (tree.toClauses .equivalences).definitions.verify b = true := by
  obtain ⟨w, hag, hmodels, -⟩ := exists_encoded htree hsize rfl a.toValuation
  have hle := size_le_numVars tree .equivalences
  have htotal := Assignment.ofValuation_mem_totals (tree.toClauses .equivalences).cnf.numVars w
  refine ⟨_, htotal, ?_, ?_⟩
  · refine Assignment.ext_value (Assignment.restrict_mem_totals htotal hle).1 ha.1 (by omega)
      fun v hv => ?_
    obtain ⟨x, hx⟩ := Option.isSome_iff_exists.mp (ha.2 v hv)
    rw [Assignment.value?_restrict hv, Assignment.value?_ofValuation (by omega), hag v hv,
      Assignment.toValuation_eq hx, hx]
  · exact ((models_definitions rfl).mpr hmodels).verify (inRange_definitions htree hsize)

/-- The root clause asserts the value of the formula. -/
theorem verify_iff (hb : b ∈ Assignment.totals (tree.toClauses .equivalences).cnf.numVars) :
    (tree.toClauses .equivalences).cnf.verify b = true ↔
      (tree.toClauses .equivalences).definitions.verify b = true ∧
        tree.evaluate (b.restrict tree.table.size) = true := by
  have hroot : ((tree.toClauses .equivalences).root, tree.root) ∈ tree.labels .equivalences :=
    Encoding.self_mem_labels ..
  have hlt := lt_of_mem_labels htree (by omega) hroot
  have hvar := Variable.var_literal (b := true) (Nat.lt_of_lt_of_le hlt hsize)
  have hlast : Clause.isSatisfiedBy [(tree.toClauses .equivalences).root.literal true] b = true ↔
      b.value? (tree.toClauses .equivalences).root = some true := by
    simp [Clause.isSatisfiedBy, Assignment.literalValue?, hvar]
  rw [Cnf.verify, clauses_toClauses, List.all_append, Bool.and_eq_true]
  refine and_congr_right fun hdefinitions => ?_
  rw [List.all_cons, List.all_nil, Bool.and_true, hlast,
    value?_label htree hsize hb hdefinitions hroot, Option.some_inj]
  rfl

end

/-- With equivalences the formula's variables determine all others. Every assignment of them has
exactly one extension that satisfies the clauses ahead of the root clause, and in it the variable of
every part of the formula has the value of that part; the operators have the auxiliary variables,
one each. So the models of the clauses, restricted to the formula's variables, are the assignments
that make the formula true, without repetition. Literals have room for `2 ^ 31` variables. -/
theorem existsUnique_extends {text : String} (h : read text = .ok tree)
    (hsize : (tree.toClauses .equivalences).cnf.numVars ≤ 2 ^ 31) :
    let form := tree.toClauses .equivalences
    let models := {b ∈ Assignment.totals form.cnf.numVars | form.cnf.verify b = true}
    let solutions := {a ∈ Assignment.totals tree.table.size | tree.evaluate a = true}
    form.cnf.clauses = form.definitions.clauses ++ [[form.root.literal true]] ∧
      (∀ a ∈ Assignment.totals tree.table.size, ∃! b, form.Extends a b) ∧
      (∀ a b, form.Extends a b → ∀ p ∈ tree.labels .equivalences,
        b.value? p.1 = some (p.2.evaluate a.toValuation)) ∧
      (tree.labels .equivalences).map Prod.snd = tree.root.nodes ∧
      (Encoding.operators (tree.labels .equivalences)).Perm form.auxiliary ∧
      Set.BijOn (Assignment.restrict tree.table.size) models solutions ∧
      models.encard = solutions.encard := by
  intro form models solutions
  have hle := size_le_numVars tree .equivalences
  have htree : tree.InRange := inRange_read h (by omega)
  have hbij : Set.BijOn (Assignment.restrict tree.table.size) models solutions := by
    refine ⟨fun b hb => ?_, fun b hb b' hb' heq => ?_, fun a ha => ?_⟩
    · exact ⟨Assignment.restrict_mem_totals hb.1 hle, ((verify_iff htree hsize hb.1).mp hb.2).2⟩
    · exact eq_of_restrict_eq htree hsize hb.1 hb'.1 ((verify_iff htree hsize hb.1).mp hb.2).1
        ((verify_iff htree hsize hb'.1).mp hb'.2).1 heq
    · obtain ⟨b, hb, rfl, hverify⟩ := exists_definitions htree hsize ha.1
      exact ⟨b, ⟨hb, (verify_iff htree hsize hb).mpr ⟨hverify, ha.2⟩⟩, rfl⟩
  refine ⟨clauses_toClauses .., fun a ha => ?_, ?_, map_snd_labels .., operators_labels_perm ..,
    hbij, ?_⟩
  · obtain ⟨b, hb⟩ := exists_definitions htree hsize ha
    refine ⟨b, hb, fun b' hb' => ?_⟩
    exact eq_of_restrict_eq htree hsize hb'.1 hb.1 hb'.2.2 hb.2.2 (hb'.2.1.trans hb.2.1.symm)
  · rintro a b ⟨hb, rfl, hverify⟩ p hp
    exact value?_label htree hsize hb hverify hp
  · rw [← hbij.image_eq, hbij.injOn.encard_image]

theorem existsUnique_extends_and : ∃ tree, read "(and (or a b) (not a))" = .ok tree ∧
    (tree.toClauses .equivalences).cnf.numVars ≤ 2 ^ 31 ∧
    (∃! b, (tree.toClauses .equivalences).Extends ⟨#[some false, some true]⟩ b) ∧
    ∀ b, (tree.toClauses .equivalences).Extends ⟨#[some false, some true]⟩ b →
      b.value? ⟨2⟩ = some true ∧ b.value? ⟨3⟩ = some true ∧ b.value? ⟨4⟩ = some true := by
  have hread : read "(and (or a b) (not a))" =
      .ok ⟨.and (.or (.var ⟨0⟩) (.var ⟨1⟩)) (.neg ⟨0⟩), ⟨#[some "a", some "b"]⟩⟩ :=
    read_of_ofText (f := .and (.or (.var "a") (.var "b")) (.neg "a")) rfl
      (ofNames_eq_iff.mpr ⟨rfl, rfl⟩)
  have htotal : (⟨#[some false, some true]⟩ : Assignment) ∈ Assignment.totals 2 :=
    Assignment.ofValuation_mem_totals 2 fun v => v.index == 1
  obtain ⟨-, hunique, hvalue, -⟩ := existsUnique_extends hread (by decide)
  refine ⟨_, hread, by decide, hunique _ htotal, fun b hb => ⟨?_, ?_, ?_⟩⟩
  · exact hvalue _ b hb (⟨2⟩, .and (.or (.var ⟨0⟩) (.var ⟨1⟩)) (.neg ⟨0⟩)) (by decide)
  · exact hvalue _ b hb (⟨3⟩, .or (.var ⟨0⟩) (.var ⟨1⟩)) (by decide)
  · exact hvalue _ b hb (⟨4⟩, .neg ⟨0⟩) (by decide)

theorem not_extends_chain {k : Nat} (hk : k + 2 = 2 ^ 31) (a b : Assignment) :
    ¬((chain k (.or (.var ⟨0⟩) (.neg ⟨0⟩))).toClauses .equivalences).Extends a b := by
  rintro ⟨-, -, hverify⟩
  have hmodels := Cnf.models_of_verify hverify fun _ _ => Assignment.toValuation_eq
  exact (shown_of_models_chain_or_not hk rfl ((models_definitions rfl).mp hmodels)).2 rfl

/-- A formula of one variable, in whose clauses there are `2 ^ 31 + 1`: no value of the variable extends to
the others, and a model of the formula is none of the clauses. -/
theorem not_exists_extends_chain :
    ∃ tree, read (Nnf.chainText (.replicate (2 ^ 31 - 2) "a") "(or a (not a))") = .ok tree ∧
      (tree.toClauses .equivalences).cnf.numVars = 2 ^ 31 + 1 ∧
      ⟨#[some true]⟩ ∈ Assignment.totals tree.table.size ∧ tree.evaluate ⟨#[some true]⟩ = true ∧
      (∀ b, ¬(tree.toClauses .equivalences).Extends ⟨#[some true]⟩ b) ∧
      ∀ b, (tree.toClauses .equivalences).cnf.verify b = false := by
  have htotal : (⟨#[some true]⟩ : Assignment) ∈ Assignment.totals 1 :=
    Assignment.ofValuation_mem_totals 1 fun _ => true
  exact ⟨_, read_chain_or_not _, numVars_chain_or_not rfl _, htotal, evaluate_chain_or_not rfl _,
    not_extends_chain rfl _, verify_chain_or_not rfl _⟩

end NnfTree

end Dpll
