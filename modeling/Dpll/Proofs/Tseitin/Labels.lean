import Dpll.Proofs.Tseitin

/-! Which variable stands for which part of a formula. The parts are listed as in `Nnf.nodes`
(`Encoding.map_snd_labels`), and the operators among them have the variables that are made while
the formula is encoded, each of them once (`Encoding.fresh`); these variables have no names
(`NnfTree.names_toClauses`). With equivalences the clauses give every listed variable the value of
its part (`Encoding.exact`). -/

namespace Dpll

variable {w : Valuation} {t l r v : Variable} {op : Bool → Bool → Bool} {e : Encoding}
  {d d' : Draft} {f left right : Nnf Variable} {cs : List Clause} {p : Variable × Nnf Variable}

namespace Nnf

variable {α : Type u} {g g' : Nnf α}

/-- Whether the formula is made by an operator, and not a variable by itself. -/
def isOperator : Nnf α → Bool
  | var _ => false
  | neg _ | and .. | or .. => true

theorem leaves_subset_of_mem_nodes (h : g ∈ g'.nodes) : g.leaves ⊆ g'.leaves := by
  induction g' with
  | var | neg => rw [List.mem_singleton.mp h]; exact List.Subset.refl _
  | and left right ihl ihr | or left right ihl ihr =>
    rcases List.mem_cons.mp h with rfl | h
    · exact List.Subset.refl _
    · rcases List.mem_append.mp h with h | h
      · exact List.subset_append_of_subset_left _ (ihl h)
      · exact List.subset_append_of_subset_right _ (ihr h)

end Nnf

namespace Draft

/-- The variables of `d'` after those of `d`. -/
def made (d d' : Draft) : List Variable :=
  (List.range' d.table.size (d'.table.size - d.table.size)).map fun i => ⟨UInt32.ofNat i⟩

theorem made_append {d'' : Draft} (h : d.Continues d') (h' : d'.Continues d'') :
    d.made d' ++ d'.made d'' = d.made d'' := by
  have hsplit : d'.table.size = d.table.size + (d'.table.size - d.table.size) := by
    have := h.size_le
    omega
  have hlength : d'.table.size - d.table.size + (d''.table.size - d'.table.size) =
      d''.table.size - d.table.size := by
    have := h.size_le
    have := h'.size_le
    omega
  rw [made, made, made, ← List.map_append, ← hlength, ← List.range'_append_1, ← hsplit]

theorem made_standIn (h : d.standIn f = (t, d')) :
    d.made d' = if f.isOperator then [t] else [] := by
  cases f <;> cases h <;> simp [made, Nnf.isOperator, VariableTable.next]

theorem mem_made (hsize : d'.table.size ≤ 2 ^ 32) :
    v ∈ d.made d' ↔ d.table.size ≤ v.toNat ∧ v.toNat < d'.table.size := by
  have hv : (⟨UInt32.ofNat v.toNat⟩ : Variable) = v := congrArg Variable.mk UInt32.ofNat_toNat
  rw [made, List.mem_map]
  constructor
  · rintro ⟨i, hi, rfl⟩
    rw [List.mem_range'_1] at hi
    have hlt : i < 2 ^ 32 := by omega
    have htoNat : Variable.toNat ⟨UInt32.ofNat i⟩ = i := UInt32.toNat_ofNat_of_lt' hlt
    omega
  · rintro ⟨hle, hlt⟩
    exact ⟨v.toNat, List.mem_range'_1.mpr (by omega), hv⟩

/-- `d'` goes on from `d` with variables that have no names. -/
structure GoesOnUnnamed (d d' : Draft) : Prop extends d.Continues d' where
  names : d'.table.names.toList = d.table.names.toList ++ (d.made d').map fun _ => none

theorem GoesOnUnnamed.trans {d'' : Draft} (h : d.GoesOnUnnamed d') (h' : d'.GoesOnUnnamed d'') :
    d.GoesOnUnnamed d'' where
  toContinues := h.toContinues.trans h'.toContinues
  names := by
    rw [h'.names, h.names, ← made_append h.toContinues h'.toContinues, List.map_append,
      List.append_assoc]

theorem goesOnUnnamed_add (d : Draft) (cs : List Clause) : d.GoesOnUnnamed (d.add cs) where
  toContinues := continues_add d cs
  names := by simp [made]

theorem goesOnUnnamed_standIn (h : d.standIn f = (t, d')) : d.GoesOnUnnamed d' where
  toContinues := continues_standIn h
  names := by
    rw [made_standIn h]
    cases f <;> cases h <;> simp [Nnf.isOperator, VariableTable.push]

end Draft

theorem Gate.exact (h : Gate .equivalences op t l r cs) (hw : ∀ c ∈ cs, c.Holds w) :
    w.shown t = op (w.shown l) (w.shown r) := by
  obtain ⟨hsound, hcomplete⟩ := (h.holds w).mp hw
  exact Bool.eq_iff_iff.mpr ⟨hsound, hcomplete rfl⟩

namespace Encoding

variable {d₁ d₂ : Draft}

/-- The formula and its parts in the order of `Nnf.nodes`, each with the variable that stands for it
when the formula, for which `t` stands, is encoded after `d`. -/
def labels (e : Encoding) (t : Variable) : Nnf Variable → Draft → List (Variable × Nnf Variable)
  | .var v, _ => [(t, .var v)]
  | .neg x, _ => [(t, .neg x)]
  | .and left right, d =>
    let (l, d₁) := d.standIn left
    let (r, d₂) := d₁.standIn right
    let d₃ := d₂.add (e.andClauses t l r)
    (t, .and left right) :: (e.labels l left d₃ ++ e.labels r right (e.encode l left d₃))
  | .or left right, d =>
    let (l, d₁) := d.standIn left
    let (r, d₂) := d₁.standIn right
    let d₃ := d₂.add (e.orClauses t l r)
    (t, .or left right) :: (e.labels l left d₃ ++ e.labels r right (e.encode l left d₃))

/-- The variables of the labels that belong to operators. -/
def operators (ls : List (Variable × Nnf Variable)) : List Variable :=
  (ls.filter fun p => p.2.isOperator).map Prod.fst

theorem operators_append (ls ls' : List (Variable × Nnf Variable)) :
    operators (ls ++ ls') = operators ls ++ operators ls' := by
  rw [operators, List.filter_append, List.map_append, operators, operators]

theorem map_snd_labels (e : Encoding) (t : Variable) (f : Nnf Variable) (d : Draft) :
    (e.labels t f d).map Prod.snd = f.nodes := by
  induction f generalizing t d with
  | var | neg => rfl
  | and left right ihl ihr | or left right ihl ihr =>
    simp only [labels, Nnf.nodes, List.map_cons, List.map_append, ihl, ihr]

theorem self_mem_labels (e : Encoding) (t : Variable) (f : Nnf Variable) (d : Draft) :
    (t, f) ∈ e.labels t f d := by
  cases f <;> exact List.mem_cons_self

/-- A variable in the formula stands for itself. -/
theorem eq_var_of_mem_labels (hself : ∀ x, f = .var x → t = x) (hp : p ∈ e.labels t f d) :
    p.2.isOperator = true ∨ p.2 = .var p.1 := by
  induction f generalizing t d with
  | var x =>
    rw [List.mem_singleton.mp hp, hself x rfl]
    exact .inr rfl
  | neg x =>
    rw [List.mem_singleton.mp hp]
    exact .inl rfl
  | and left right ihl ihr | or left right ihl ihr =>
    rcases List.mem_cons.mp hp with rfl | hp
    · exact .inl rfl
    · rcases List.mem_append.mp hp with hp | hp
      · exact ihl (Draft.self_standIn rfl) hp
      · exact ihr (Draft.self_standIn rfl) hp

/-- All variables that are made for operators are unnamed. -/
theorem goesOnUnnamed_encode (e : Encoding) (t : Variable) (f : Nnf Variable) (d : Draft) :
    d.GoesOnUnnamed (e.encode t f d) := by
  induction f generalizing t d with
  | var => exact ⟨.refl d, by simp [encode, Draft.made]⟩
  | neg => exact Draft.goesOnUnnamed_add d _
  | and left right ihl ihr | or left right ihl ihr =>
    exact (Draft.goesOnUnnamed_standIn rfl).trans <| (Draft.goesOnUnnamed_standIn rfl).trans <|
      (Draft.goesOnUnnamed_add ..).trans <| (ihl ..).trans (ihr ..)

/-- The variable of the formula itself aside, operators have the variables that are made for
them. -/
def Fresh (e : Encoding) (f : Nnf Variable) : Prop :=
  ∀ (t : Variable) (d : Draft), (operators (e.labels t f d)).Perm
    ((if f.isOperator then [t] else []) ++ d.made (e.encode t f d))

theorem Fresh.parts (hleft : e.Fresh left) (hright : e.Fresh right) (hl : d.standIn left = (l, d₁))
    (hr : d₁.standIn right = (r, d₂)) (cs : List Clause) :
    (operators (e.labels l left (d₂.add cs) ++
        e.labels r right (e.encode l left (d₂.add cs)))).Perm
      (d.made (e.encode r right (e.encode l left (d₂.add cs)))) := by
  have hc₁ := Draft.continues_standIn hl
  have hc₂ := Draft.continues_standIn hr
  have hc₃ := (Draft.continues_add d₂ cs).trans (continues_encode e l left (d₂.add cs))
  have hc₄ := continues_encode e r right (e.encode l left (d₂.add cs))
  have hpl := hleft l (d₂.add cs)
  have hpr := hright r (e.encode l left (d₂.add cs))
  rw [← Draft.made_standIn hl] at hpl
  rw [← Draft.made_standIn hr] at hpr
  rw [operators_append, ← Draft.made_append (hc₁.trans hc₂) (hc₃.trans hc₄),
    ← Draft.made_append hc₁ hc₂, ← Draft.made_append hc₃ hc₄]
  -- both parts get their variables before the left one is encoded
  refine (hpl.append hpr).trans ?_
  rw [List.append_assoc, List.append_assoc]
  exact .append_left _ (List.perm_append_comm_assoc ..)

theorem fresh (e : Encoding) (f : Nnf Variable) : e.Fresh f := by
  intro t d
  induction f generalizing t d with
  | var | neg =>
    simp [labels, operators, Nnf.isOperator, encode, Draft.made]
  | and left right ihl ihr | or left right ihl ihr => exact (Fresh.parts ihl ihr rfl rfl _).cons t

/-- Where the clauses made for the formula hold, the labels have the values of their parts. -/
def Exact (w : Valuation) (f : Nnf Variable) : Prop :=
  ∀ {t : Variable} {d : Draft}, (∀ v, f = .var v → t = v) →
    (equivalences.encode t f d).Models w →
      ∀ p ∈ equivalences.labels t f d, w.shown p.1 = p.2.evaluate w.shown

theorem Exact.parts (hleft : Exact w left) (hright : Exact w right)
    (hl : d.standIn left = (l, d₁)) (hr : d₁.standIn right = (r, d₂))
    (hgate : Gate .equivalences op t l r cs)
    (hw : (equivalences.encode r right (equivalences.encode l left (d₂.add cs))).Models w) :
    w.shown t = op (left.evaluate w.shown) (right.evaluate w.shown) ∧
      ∀ p ∈ equivalences.labels l left (d₂.add cs) ++
        equivalences.labels r right (equivalences.encode l left (d₂.add cs)),
        w.shown p.1 = p.2.evaluate w.shown := by
  have hwleft := (continues_encode ..).models hw
  have hwgate := (Draft.models_add.mp ((continues_encode ..).models hwleft)).2
  have hlabelsl := hleft (Draft.self_standIn hl) hwleft
  have hlabelsr := hright (Draft.self_standIn hr) hw
  refine ⟨?_, fun p hp => (List.mem_append.mp hp).elim (hlabelsl p) (hlabelsr p)⟩
  rw [hgate.exact hwgate, hlabelsl _ (self_mem_labels ..), hlabelsr _ (self_mem_labels ..)]

theorem exact (w : Valuation) (f : Nnf Variable) : Exact w f := by
  intro t d hself hw
  induction f generalizing t d with
  | var v => simp [labels, hself v rfl, Nnf.evaluate]
  | neg x =>
    have hx := (gate_neg .equivalences t x).exact (Draft.models_add.mp hw).2
    simpa [labels, Nnf.evaluate] using hx
  | and left right ihl ihr =>
    obtain ⟨ht, hparts⟩ := Exact.parts ihl ihr rfl rfl (gate_and ..) hw
    exact List.forall_mem_cons.mpr ⟨ht, hparts⟩
  | or left right ihl ihr =>
    obtain ⟨ht, hparts⟩ := Exact.parts ihl ihr rfl rfl (gate_or ..) hw
    exact List.forall_mem_cons.mpr ⟨ht, hparts⟩

end Encoding

namespace NnfTree

variable {tree : NnfTree}

theorem auxiliary_eq (h : Draft.standIn ⟨tree.table, #[]⟩ tree.root = (t, d)) :
    (tree.toClauses e).auxiliary = Draft.made ⟨tree.table, #[]⟩ (e.encode t tree.root d) := by
  rw [ClausalForm.auxiliary, numVars_toClauses h]
  rfl

/-- The variables of the formula keep their names. -/
theorem names_toClauses (tree : NnfTree) (e : Encoding) :
    (tree.toClauses e).cnf.table.names.toList =
      tree.table.names.toList ++ (tree.toClauses e).auxiliary.map fun _ => none := by
  rcases h : Draft.standIn ⟨tree.table, #[]⟩ tree.root with ⟨t, d⟩
  have htable : (tree.toClauses e).cnf.table = (e.encode t tree.root d).table := by
    simp only [toClauses, h, Draft.table_add]
  have hunnamed := (Draft.goesOnUnnamed_standIn h).trans (e.goesOnUnnamed_encode t tree.root d)
  rw [htable, hunnamed.names, auxiliary_eq h]

end NnfTree

end Dpll
