import Dpll.Proofs.Tseitin.Extension
import Mathlib.Tactic.Ring

/-! The shape of clausal forms. Which variables stand for the parts of a formula does not depend on the
encoding (`Nnf.labelled`), and the clauses are those of the operators in the order of the formula, each
made of the variables of the operator and of its parts (`Encoding.clauses_encode`). So both encodings
number alike, one adds clauses to the other (`NnfTree.toClauses_shape`), and there are never many more
clauses than variables (`NnfTree.length_clauses_le`). -/

namespace Dpll

variable {t v : Variable} {e : Encoding} {d : Draft} {f left right : Nnf Variable}
  {table : VariableTable}

/-- The operators of formulas. -/
inductive Operator where
  | neg
  | and
  | or
deriving DecidableEq, Repr

namespace Nnf

variable {α : Type u} {l r : Nnf α} {op : Operator}

/-- The operator that makes the formula, unless it is a variable by itself. -/
def operator? : Nnf α → Option Operator
  | var _ => none
  | neg _ => some .neg
  | and .. => some .and
  | or .. => some .or

/-- How many times an operator occurs in the formula. -/
def count (op : Operator) (g : Nnf α) : Nat := g.nodes.countP fun h => h.operator? = some op

@[simp]
theorem count_var {a : α} : (var a).count op = 0 := by simp [count, nodes, operator?]

@[simp]
theorem count_neg {a : α} : (neg a).count op = if op = .neg then 1 else 0 := by
  simp [count, nodes, operator?, eq_comm]

@[simp]
theorem count_and : (and l r).count op = l.count op + r.count op + if op = .and then 1 else 0 := by
  simp [count, nodes, operator?, List.countP_cons, List.countP_append, eq_comm]

@[simp]
theorem count_or : (or l r).count op = l.count op + r.count op + if op = .or then 1 else 0 := by
  simp [count, nodes, operator?, List.countP_cons, List.countP_append, eq_comm]

/-- How many operators a formula has. -/
def numOperators (g : Nnf α) : Nat := g.count .and + g.count .or + g.count .neg

end Nnf

/-- A formula whose operators carry the variables that stand for them. A variable stands for itself. -/
inductive LabelledNnf where
  | var (v : Variable)
  | neg (t x : Variable)
  | and (t : Variable) (left right : LabelledNnf)
  | or (t : Variable) (left right : LabelledNnf)

namespace LabelledNnf

/-- The variable that stands for the formula. -/
def label : LabelledNnf → Variable
  | var v => v
  | neg t _ | and t .. | or t .. => t

/-- The formula without labels. -/
def formula : LabelledNnf → Nnf Variable
  | var v => .var v
  | neg _ x => .neg x
  | and _ left right => .and left.formula right.formula
  | or _ left right => .or left.formula right.formula

/-- The variables of the operators in the order of `Nnf.nodes`. -/
def operators : LabelledNnf → List Variable
  | var _ => []
  | neg t _ => [t]
  | and t left right | or t left right => t :: (left.operators ++ right.operators)

/-- The clauses of the operators in the order of `Nnf.nodes`. -/
def clauses (e : Encoding) : LabelledNnf → List Clause
  | var _ => []
  | neg t x => e.negClauses t x
  | and t left right =>
    e.andClauses t left.label right.label ++ (left.clauses e ++ right.clauses e)
  | or t left right =>
    e.orClauses t left.label right.label ++ (left.clauses e ++ right.clauses e)

theorem length_operators (g : LabelledNnf) : g.operators.length = g.formula.numOperators := by
  unfold Nnf.numOperators
  induction g with
  | var | neg => simp [operators, formula]
  | and t l r ihl ihr | or t l r ihl ihr =>
    simp [operators, formula, ihl, ihr]
    omega

/-- Implications are among the equivalences, in the same order. -/
theorem sublist_clauses (g : LabelledNnf) :
    (g.clauses .implications).Sublist (g.clauses .equivalences) := by
  induction g with
  | var => exact List.Sublist.refl _
  | neg => exact List.sublist_append_right ..
  | and t l r ihl ihr | or t l r ihl ihr =>
    exact (List.sublist_append_right ..).append (ihl.append ihr)

end LabelledNnf

/-- How many clauses an operator takes. -/
def Encoding.cost : Encoding → Operator → Nat
  | implications, .neg => 1
  | implications, .and => 2
  | implications, .or => 1
  | equivalences, .neg => 2
  | equivalences, .and => 3
  | equivalences, .or => 3

theorem LabelledNnf.length_clauses (e : Encoding) (g : LabelledNnf) : (g.clauses e).length =
    e.cost .and * g.formula.count .and + e.cost .or * g.formula.count .or +
      e.cost .neg * g.formula.count .neg := by
  induction g with
  | var => simp [clauses, formula]
  | neg => cases e <;> simp [clauses, formula, Encoding.negClauses, Encoding.whenEquivalent, Encoding.cost]
  | and t l r ihl ihr =>
    have hgate : (e.andClauses t l.label r.label).length = e.cost .and := by cases e <;> rfl
    simp [clauses, formula, ihl, ihr, hgate]
    ring
  | or t l r ihl ihr =>
    have hgate : (e.orClauses t l.label r.label).length = e.cost .or := by cases e <;> rfl
    simp [clauses, formula, ihl, ihr, hgate]
    ring

/-! ### Labelling -/

/-- The variable that stands for a formula, and the table with it. -/
def VariableTable.standIn (table : VariableTable) : Nnf Variable → Variable × VariableTable
  | .var v => (v, table)
  | _ => (table.next, table.push none)

/-- Labels a formula for which `t` stands. Both parts of an operator get their variables before the
operators inside of them. -/
def Nnf.labelled (t : Variable) : Nnf Variable → VariableTable → LabelledNnf × VariableTable
  | .var v, table => (.var v, table)
  | .neg x, table => (.neg t x, table)
  | .and left right, table =>
    let (l, table) := table.standIn left
    let (r, table) := table.standIn right
    let (left, table) := left.labelled l table
    let (right, table) := right.labelled r table
    (.and t left right, table)
  | .or left right, table =>
    let (l, table) := table.standIn left
    let (r, table) := table.standIn right
    let (left, table) := left.labelled l table
    let (right, table) := right.labelled r table
    (.or t left right, table)

theorem Draft.standIn_eq (d : Draft) (f : Nnf Variable) :
    d.standIn f = ((d.table.standIn f).1, { d with table := (d.table.standIn f).2 }) := by
  cases f <;> rfl

theorem VariableTable.self_standIn : ∀ v, f = .var v → (table.standIn f).1 = v := by
  rintro v rfl
  rfl

namespace Nnf

theorem formula_labelled (t : Variable) (f : Nnf Variable) (table : VariableTable) :
    (f.labelled t table).1.formula = f := by
  induction f generalizing t table with
  | var | neg => rfl
  | and left right ihl ihr | or left right ihl ihr =>
    simp only [labelled, LabelledNnf.formula, ihl, ihr]

theorem label_labelled (h : ∀ v, f = .var v → t = v) : (f.labelled t table).1.label = t := by
  cases f with
  | var v => exact (h v rfl).symm
  | neg | and | or => rfl

end Nnf

namespace Encoding

theorem table_encode (e : Encoding) (t : Variable) (f : Nnf Variable) (d : Draft) :
    (e.encode t f d).table = (f.labelled t d.table).2 := by
  induction f generalizing t d with
  | var | neg => rfl
  | and left right ihl ihr | or left right ihl ihr =>
    simp only [encode, Nnf.labelled, Draft.standIn_eq, Draft.table_add, ihl, ihr]

theorem operators_labels (e : Encoding) (t : Variable) (f : Nnf Variable) (d : Draft) :
    operators (e.labels t f d) = (f.labelled t d.table).1.operators := by
  induction f generalizing t d with
  | var | neg => rfl
  | and left right ihl ihr | or left right ihl ihr =>
    simp only [labels, Nnf.labelled, LabelledNnf.operators, Draft.standIn_eq]
    refine congrArg (t :: ·) ?_
    rw [← operators, operators_append, ihl, ihr, table_encode, Draft.table_add]

/-- Encoding adds the clauses of the labelled formula. -/
theorem clauses_encode (e : Encoding) (t : Variable) (f : Nnf Variable) (d : Draft) :
    (e.encode t f d).clauses.toList =
      d.clauses.toList ++ (f.labelled t d.table).1.clauses e := by
  induction f generalizing t d with
  | var => exact (List.append_nil _).symm
  | neg => simp [encode, Nnf.labelled, LabelledNnf.clauses, Draft.add]
  | and left right ihl ihr | or left right ihl ihr =>
    simp only [encode, Nnf.labelled, LabelledNnf.clauses, Draft.standIn_eq, ihl, ihr, table_encode,
      Draft.table_add, Nnf.label_labelled VariableTable.self_standIn]
    simp [Draft.add]

end Encoding

namespace NnfTree

variable {tree : NnfTree}

/-- The formula with the variables that stand for its operators. -/
def labelled (tree : NnfTree) : LabelledNnf :=
  let (root, table) := tree.table.standIn tree.root
  (tree.root.labelled root table).1

theorem root_toClauses (tree : NnfTree) (e : Encoding) :
    (tree.toClauses e).root = tree.labelled.label := by
  simp only [toClauses, labelled, Draft.standIn_eq, Nnf.label_labelled VariableTable.self_standIn]

theorem operators_labelled_perm (tree : NnfTree) (e : Encoding) :
    tree.labelled.operators.Perm (tree.toClauses e).auxiliary := by
  have hoperators : Encoding.operators (tree.labels e) = tree.labelled.operators := by
    simp only [labels, labelled, Draft.standIn_eq, Encoding.operators_labels]
  exact hoperators ▸ operators_labels_perm tree e

theorem clauses_eq (tree : NnfTree) (e : Encoding) : (tree.toClauses e).cnf.clauses =
    tree.labelled.clauses e ++ [[tree.labelled.label.literal true]] := by
  simp only [clauses_toClauses, definitions_toClauses (Draft.standIn_eq _ _), root_toClauses,
    Encoding.clauses_encode, labelled]
  rfl

theorem count_labelled (tree : NnfTree) (op : Operator) :
    tree.labelled.formula.count op = tree.root.count op := by
  rw [labelled, Nnf.formula_labelled]

/-- Behind the variables of the formula there is an unnamed one for every operator. -/
theorem names_toClauses_replicate (tree : NnfTree) (e : Encoding) :
    (tree.toClauses e).cnf.table.names.toList =
      tree.table.names.toList ++ List.replicate tree.root.numOperators none := by
  have hlength : (tree.toClauses e).auxiliary.length = tree.root.numOperators := by
    rw [← (operators_labelled_perm tree e).length_eq, LabelledNnf.length_operators, labelled,
      Nnf.formula_labelled]
  rw [names_toClauses, List.map_const', hlength]

theorem numVars_toClauses_eq (tree : NnfTree) (e : Encoding) :
    (tree.toClauses e).cnf.numVars = tree.table.size + tree.root.numOperators := by
  have hnames := congrArg List.length (names_toClauses_replicate tree e)
  rwa [List.length_append, List.length_replicate, Array.length_toList, Array.length_toList] at hnames

theorem table_toClauses (tree : NnfTree) (e e' : Encoding) :
    (tree.toClauses e).cnf.table = (tree.toClauses e').cnf.table := by
  have hnames := (names_toClauses_replicate tree e).trans (names_toClauses_replicate tree e').symm
  exact congrArg VariableTable.mk (Array.toList_inj.mp hnames)

theorem length_clauses_toClauses (tree : NnfTree) (e : Encoding) :
    (tree.toClauses e).cnf.clauses.length = e.cost .and * tree.root.count .and +
      e.cost .or * tree.root.count .or + e.cost .neg * tree.root.count .neg + 1 := by
  rw [clauses_eq, List.length_append, LabelledNnf.length_clauses]
  simp only [count_labelled]
  rfl

theorem length_clauses_le (tree : NnfTree) (e : Encoding) :
    (tree.toClauses e).cnf.clauses.length ≤ 3 * (tree.toClauses e).cnf.numVars + 1 := by
  rw [length_clauses_toClauses, numVars_toClauses_eq, Nnf.numOperators]
  cases e <;> simp only [Encoding.cost] <;> omega

/-- As long as there are enough of them, indices are told apart. -/
theorem map_toNat_auxiliary (hsize : (tree.toClauses e).cnf.numVars ≤ 2 ^ 32) :
    (tree.toClauses e).auxiliary.map Variable.toNat =
      List.range' tree.table.size tree.root.numOperators := by
  have hcount : (tree.toClauses e).cnf.numVars - tree.table.size = tree.root.numOperators := by
    rw [numVars_toClauses_eq, Nat.add_sub_cancel_left]
  rw [numVars_toClauses_eq] at hsize
  have haux : (tree.toClauses e).auxiliary =
      (List.range' tree.table.size tree.root.numOperators).map fun i => ⟨UInt32.ofNat i⟩ := by
    rw [← hcount]
    rfl
  rw [haux, List.map_map]
  refine (List.map_congr_left fun i hi => ?_).trans (List.map_id _)
  rw [List.mem_range'_1] at hi
  exact UInt32.toNat_ofNat_of_lt' (show i < 2 ^ 32 by omega)

/-- Both encodings give a formula the same variables: its own ones first, with their names, and then an
unnamed one for every occurrence of an operator. The clauses are those of the operators, and with
equivalences they are the ones of implications with others in between. There are `2 ^ 32` indices. -/
theorem toClauses_shape (tree : NnfTree) :
    let ands := tree.root.count .and
    let ors := tree.root.count .or
    let negs := tree.root.count .neg
    let implied := tree.toClauses .implications
    let equivalent := tree.toClauses .equivalences
    tree.labelled.formula = tree.root ∧
      (∀ e, let form := tree.toClauses e
        form.root = tree.labelled.label ∧ form.tree = tree.root ∧ form.numInputs = tree.table.size ∧
        form.cnf.numVars = form.numInputs + (ands + ors + negs) ∧
        form.cnf.table.names.toList =
          tree.table.names.toList ++ List.replicate (ands + ors + negs) none ∧
        tree.labelled.operators.Perm form.auxiliary ∧
        (form.cnf.numVars ≤ 2 ^ 32 → form.auxiliary.map Variable.toNat =
          List.range' form.numInputs (ands + ors + negs)) ∧
        form.cnf.clauses = tree.labelled.clauses e ++ [[form.root.literal true]]) ∧
      implied.cnf.table = equivalent.cnf.table ∧
      implied.cnf.clauses.length = 2 * ands + ors + negs + 1 ∧
      equivalent.cnf.clauses.length = 3 * ands + 3 * ors + 2 * negs + 1 ∧
      implied.cnf.clauses.Sublist equivalent.cnf.clauses := by
  intro ands ors negs implied equivalent
  have himplied := length_clauses_toClauses tree .implications
  have hequivalent := length_clauses_toClauses tree .equivalences
  simp only [Encoding.cost, Nat.one_mul] at himplied hequivalent
  refine ⟨Nnf.formula_labelled .., fun e => ?_, table_toClauses .., himplied, hequivalent, ?_⟩
  · exact ⟨root_toClauses .., rfl, rfl, numVars_toClauses_eq .., names_toClauses_replicate ..,
      operators_labelled_perm .., map_toNat_auxiliary, root_toClauses tree e ▸ clauses_eq ..⟩
  · rw [clauses_eq, clauses_eq]
    exact (LabelledNnf.sublist_clauses _).append (List.Sublist.refl _)

/-- A negation inside of a disjunction inside of a conjunction. -/
theorem toClauses_shape_and : ∃ tree, read "(and (or a (not b)) c)" = .ok tree ∧
    (tree.toClauses .equivalences).cnf.numVars ≤ 2 ^ 32 ∧
    (tree.toClauses .equivalences).auxiliary.map Variable.toNat = [3, 4, 5] ∧
    (tree.toClauses .implications).cnf.clauses.length = 5 ∧
    (tree.toClauses .equivalences).cnf.clauses.length = 9 := by
  have hread : read "(and (or a (not b)) c)" =
      .ok ⟨.and (.or (.var ⟨0⟩) (.neg ⟨1⟩)) (.var ⟨2⟩), ⟨#[some "a", some "b", some "c"]⟩⟩ :=
    read_of_ofText (f := .and (.or (.var "a") (.neg "b")) (.var "c")) rfl
      (ofNames_eq_iff.mpr ⟨rfl, rfl⟩)
  obtain ⟨-, hforms, -, himplied, hequivalent, -⟩ := toClauses_shape
    ⟨.and (.or (.var ⟨0⟩) (.neg ⟨1⟩)) (.var ⟨2⟩), ⟨#[some "a", some "b", some "c"]⟩⟩
  obtain ⟨-, -, -, -, -, -, hindices, -⟩ := hforms .equivalences
  exact ⟨_, hread, by decide, hindices (by decide), himplied, hequivalent⟩

end NnfTree

end Dpll
