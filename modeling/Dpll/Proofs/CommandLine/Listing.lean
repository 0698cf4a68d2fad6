import Dpll.Problem
import Dpll.Proofs.CommandLine.Report
import Dpll.Proofs.Sources
import Dpll.Proofs.Tseitin.Chain

/-! The formulas that commands are given, and the models that are listed of them. A model is one of the
clauses, and for a formula in negation normal form these speak of more variables than the formula;
what is listed of it determines the formula all the same (`Input.Listed`). -/

namespace Dpll

/-- A formula that a command is given, as it was read. -/
inductive Input where
  | dimacs (d : DimacsDocument)
  | nnf (tree : NnfTree)

namespace Input

/-- The problem that is made of the formula. -/
def problem (e : Encoding) : Input → Problem
  | dimacs d => ⟨d.toCnf, .dimacs⟩
  | nnf tree => ⟨(tree.toClauses e).cnf, .nnf⟩

/-- The variables of the formula. -/
def table : Input → VariableTable
  | dimacs d => d.toCnf.table
  | nnf tree => tree.table

/-- The formula has a reader that returned it. -/
inductive Read : Input → Prop
  | dimacs {bytes : List UInt8} {d : DimacsDocument} (h : DimacsDocument.read bytes = .ok d) :
      Read (dimacs d)
  | nnf {text : String} {tree : NnfTree} (h : NnfTree.read text = .ok tree) : Read (nnf tree)

/-- Literals have room for `n` variables, as those of DIMACS text always have. -/
def Fits (n : Nat) : Input → Prop
  | dimacs _ => True
  | nnf _ => n ≤ 2 ^ 31

/-- The valuation satisfies the formula: every clause, or the formula in negation normal form. -/
def Holds (v : Valuation) : Input → Prop
  | dimacs d => d.toCnf.Models v
  | nnf tree => tree.root.evaluate v = true

/-- What the literals that are listed of a model, with their names, say of the formula. -/
structure Listed (i : Input) (ls : List (Literal × String)) : Prop where
  /-- They are literals of the formula's own variables. -/
  named : ∀ e ∈ ls, i.table.name? e.1.var = some e.2
  distinct : (ls.map (·.2)).Nodup
  /-- Those of DIMACS text are in the order of their variables. -/
  ascending : ∀ d, i = .dimacs d → ls.Pairwise fun a b => a.1.var.toNat < b.1.var.toNat
  /-- Whatever the other variables are, the formula is satisfied. -/
  holds : ∀ v : Valuation, (∀ e ∈ ls, e.1.Holds v) → i.Holds v

end Input

/-! ### Names -/

namespace VariableTable

variable {t : VariableTable} {v w : Variable} {name : String} {n : Nat}

/-- No name is given twice. -/
def Distinct (t : VariableTable) : Prop :=
  ∀ {v w name}, t.name? v = some name → t.name? w = some name → v = w

theorem name?_eq (t : VariableTable) (v : Variable) :
    t.name? v = (t.names.toList[v.toNat]?).join := by
  rw [name?, Array.getElem?_toList]

theorem distinct_of_nodup {names : List String} (h : t.names.toList = names.map some)
    (hnames : names.Nodup) : t.Distinct := by
  have hname (x : Variable) : t.name? x = names[x.toNat]? := by
    rw [name?_eq, h, List.getElem?_map]
    cases names[x.toNat]? <;> rfl
  intro v w name hv hw
  rw [hname] at hv hw
  have hlt : v.toNat < names.length := (List.getElem?_eq_some_iff.mp hv).1
  exact Variable.toNat_inj ((List.getElem?_inj hlt hnames).mp (hv.trans hw.symm))

theorem name?_numbered : (numbered n).name? v = some name ↔
    v.toNat < n ∧ toString (v.toNat + 1) = name := by
  rw [name?_eq, names_numbered]
  by_cases h : v.toNat < n <;> simp [h]

end VariableTable

theorem Problem.rank_toString (v : Variable) : rank (toString (v.toNat + 1)) = v.toNat + 1 := by
  have hlt : v.toNat < 2 ^ 32 := v.index.toNat_lt
  have hsize : v.toNat + 1 < UInt64.size := Nat.lt_of_le_of_lt hlt (by decide)
  rw [rank, Text.unsigned?_toString hsize, Option.getD_some]

theorem VariableTable.distinct_numbered (n : Nat) : (numbered n).Distinct := by
  intro v w name hv hw
  have heq := congrArg Problem.rank
    ((name?_numbered.mp hv).2.trans (name?_numbered.mp hw).2.symm)
  rw [Problem.rank_toString, Problem.rank_toString] at heq
  exact Variable.toNat_inj (Nat.succ.inj heq)

namespace NnfTree

variable {tree : NnfTree} {text : String}

/-- The variables of the operators have no names. -/
theorem name?_toClauses (tree : NnfTree) (e : Encoding) (v : Variable) :
    (tree.toClauses e).cnf.table.name? v = tree.table.name? v := by
  rw [VariableTable.name?_eq, names_toClauses, VariableTable.name?_eq]
  by_cases hv : v.toNat < tree.table.names.toList.length
  · rw [List.getElem?_append_left hv]
  · rw [List.getElem?_append_right (Nat.le_of_not_lt hv), List.getElem?_map,
      List.getElem?_eq_none (Nat.le_of_not_lt hv)]
    cases (tree.toClauses e).auxiliary[v.toNat - tree.table.names.toList.length]? <;> rfl

theorem exists_names (h : read text = .ok tree) :
    ∃ names : List String, tree.table.names.toList = names.map some ∧ names.Nodup := by
  obtain ⟨f, -, htree⟩ := read_eq_ok.mp h
  exact ⟨f.leaves.eraseDups, (ofNames_eq_iff.mp htree).1, nodup_eraseDups f.leaves⟩

/-- Every variable of a formula that was read has a name. -/
theorem exists_name? (h : read text = .ok tree) {v : Variable} (hv : v.toNat < tree.table.size) :
    ∃ name, tree.table.name? v = some name := by
  obtain ⟨names, hnames, -⟩ := exists_names h
  have hlength : tree.table.size = names.length := by
    rw [VariableTable.size, ← Array.length_toList, hnames, List.length_map]
  rw [VariableTable.name?_eq, hnames, List.getElem?_map, List.getElem?_eq_getElem (hlength ▸ hv)]
  exact ⟨_, rfl⟩

end NnfTree

namespace Input

variable {i : Input} {e : Encoding}

theorem name?_problem (i : Input) (e : Encoding) (v : Variable) :
    (i.problem e).cnf.table.name? v = i.table.name? v := by
  cases i with
  | dimacs d => rfl
  | nnf tree => exact tree.name?_toClauses e v

theorem distinct_table (h : i.Read) : i.table.Distinct := by
  cases h with
  | @dimacs _ d h => exact VariableTable.distinct_numbered d.numVars
  | nnf h =>
    obtain ⟨names, hnames, hnodup⟩ := NnfTree.exists_names h
    exact VariableTable.distinct_of_nodup hnames hnodup

/-! ### Clauses -/

theorem exists_models (h : i.Read) (hfits : i.Fits (i.problem e).cnf.numVars)
    (hv : ∃ v, i.Holds v) : ∃ v, (i.problem e).cnf.Models v := by
  cases h with
  | dimacs => exact hv
  | @nnf _ tree h =>
    obtain ⟨v, hv⟩ := hv
    have hsize : tree.table.size ≤ 2 ^ 31 := Nat.le_trans (NnfTree.size_le_numVars tree e) hfits
    have htree := NnfTree.inRange_read h (Nat.le_trans hsize (by decide))
    obtain ⟨w, -, hw⟩ := NnfTree.exists_models htree hfits hv
    exact ⟨w, hw⟩

/-- The literals of named variables among those of a model determine the formula. -/
theorem holds_of_named {model : List Literal} (h : i.Read) (hfits : i.Fits i.table.size)
    (hmodel : ∀ v, (∀ l ∈ model, l.Holds v) → (i.problem e).cnf.Models v)
    (hu : ∃ u, ∀ l ∈ model, l.Holds u) (hrange : ∀ l ∈ model, l.var.toNat < (i.problem e).cnf.numVars)
    {v : Valuation} (hv : ∀ l ∈ model, ∀ name, i.table.name? l.var = some name → l.Holds v) :
    i.Holds v := by
  cases h with
  | @dimacs _ d h =>
    refine hmodel v fun l hl => hv l hl _ (VariableTable.name?_numbered.mpr ⟨?_, rfl⟩)
    have hlt := hrange l hl
    rwa [problem, Cnf.numVars, DimacsDocument.toCnf, VariableTable.size_numbered] at hlt
  | @nnf _ tree h =>
    have hsize : tree.table.size ≤ 2 ^ 31 := hfits
    have htree := NnfTree.inRange_read h (Nat.le_trans hsize (by decide))
    obtain ⟨u, hu⟩ := hu
    -- the variables of the operators keep the values that the model gives them
    let w : Valuation := fun x => if x.toNat < tree.table.size then v x else u x
    have hw : (tree.toClauses e).cnf.Models w := by
      refine hmodel w fun l hl => ?_
      rw [Literal.Holds]
      dsimp only [w]
      split
      · rename_i hlt
        obtain ⟨name, hname⟩ := NnfTree.exists_name? h hlt
        exact hv l hl name hname
      · exact hu l hl
    have heval : tree.root.evaluate v = tree.root.evaluate w.shown := by
      refine Nnf.evaluate_congr fun x hx => ?_
      have hlt : x.toNat < tree.table.size := htree x hx
      rw [Valuation.shown_eq (Nat.lt_of_lt_of_le hlt hsize)]
      exact (if_pos hlt).symm
    exact heval.trans (NnfTree.evaluate_of_models hw)

end Input

/-! ### Lists of literals -/

namespace Problem

variable {p : Problem} {model : List Literal}

/-- The literals of named variables, in the order of the model. -/
theorem map_fst_filterMap (p : Problem) (model : List Literal) :
    (model.filterMap fun l => (p.cnf.table.name? l.var).map (l, ·)).map (·.1) =
      model.filter fun l => (p.cnf.table.name? l.var).isSome := by
  induction model with
  | nil => rfl
  | cons l model ih => cases h : p.cnf.table.name? l.var <;> simp [h, ih]

theorem named_perm (p : Problem) (model : List Literal) :
    (p.named model).Perm (model.filterMap fun l => (p.cnf.table.name? l.var).map (l, ·)) := by
  unfold named
  dsimp only
  split
  · exact List.mergeSort_perm ..
  · exact .refl _

theorem mem_named {a : Literal × String} :
    a ∈ p.named model ↔ a.1 ∈ model ∧ p.cnf.table.name? a.1.var = some a.2 := by
  obtain ⟨l, name⟩ := a
  rw [(named_perm p model).mem_iff, List.mem_filterMap]
  simp only [Option.map_eq_some_iff, Prod.mk.injEq]
  constructor
  · rintro ⟨l, hl, name, hname, rfl, rfl⟩
    exact ⟨hl, hname⟩
  · rintro ⟨hl, hname⟩
    exact ⟨l, hl, name, hname, rfl, rfl⟩

theorem nodup_vars_named (h : (model.map (·.var)).Nodup) :
    ((p.named model).map (·.1.var)).Nodup := by
  have hperm := (named_perm p model).map (·.1)
  rw [map_fst_filterMap] at hperm
  have hnodup := (hperm.map (·.var)).nodup_iff.mpr (h.sublist (List.filter_sublist.map _))
  rwa [List.map_map] at hnodup

/-- For DIMACS text the literals are in the order of the numbers that their names are. -/
theorem pairwise_rank_named (model : List Literal) (hp : p.format = .dimacs) :
    (p.named model).Pairwise fun a b => rank a.2 ≤ rank b.2 := by
  unfold named
  rw [hp]
  refine (List.pairwise_mergeSort ?_ ?_ _).imp of_decide_eq_true
  · intro a b c hab hbc
    exact decide_eq_true (Nat.le_trans (of_decide_eq_true hab) (of_decide_eq_true hbc))
  · intro a b
    simpa using Nat.le_total (rank a.2) (rank b.2)

end Problem

namespace Input

variable {i : Input} {e : Encoding} {x : Outcome}

theorem listed (h : i.Read) (hfits : i.Fits i.table.size) (hx : x.Truthful (i.problem e).cnf)
    (hsat : x.satisfiable = true) : i.Listed ((i.problem e).named x.model) := by
  have hnamed : ∀ a ∈ (i.problem e).named x.model, i.table.name? a.1.var = some a.2 := by
    intro a ha
    rw [← name?_problem i e]
    exact (Problem.mem_named.mp ha).2
  have hvars := Problem.nodup_vars_named (p := i.problem e) (hx.nodup hsat)
  refine ⟨hnamed, ?_, ?_, fun v hv => ?_⟩
  · refine List.Nodup.map_on (fun a ha b hb heq => ?_) (.of_map _ hvars)
    have hvar := distinct_table h (hnamed a ha) (heq ▸ hnamed b hb)
    exact List.inj_on_of_nodup_map hvars ha hb hvar
  · rintro d rfl
    have hrank : ∀ a ∈ ((dimacs d).problem e).named x.model,
        Problem.rank a.2 = a.1.var.toNat + 1 := by
      intro a ha
      rw [← (VariableTable.name?_numbered.mp (hnamed a ha)).2, Problem.rank_toString]
    have hsorted := Problem.pairwise_rank_named (p := (dimacs d).problem e) x.model rfl
    refine (hsorted.and (List.pairwise_map.mp hvars)).imp_of_mem fun {a b} ha hb hab => ?_
    rw [hrank a ha, hrank b hb] at hab
    exact Nat.lt_of_le_of_ne (Nat.le_of_succ_le_succ hab.1) fun heq => hab.2 (Variable.toNat_inj heq)
  · refine holds_of_named h hfits (hx.models hsat) (hx.holds hsat) hx.inRange fun l hl name hname => ?_
    exact hv (l, name) (Problem.mem_named.mpr ⟨hl, (name?_problem i e l.var).trans hname⟩)

end Input

end Dpll
