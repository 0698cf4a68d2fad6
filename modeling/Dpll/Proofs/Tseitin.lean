import Dpll.Proofs.Cnf
import Dpll.Proofs.Nnf
import Dpll.Tseitin

/-! The clausal form of a formula against the formula. Wherever the clauses hold, the variable of
every operator implies it (`Encoding.sound`); this does not depend on the variables being new, and
since negation stands on variables only, the implications are enough for it. A valuation of the
formula's variables is extended to the new ones by the values of the operators they stand for
(`Encoding.complete`). Clauses made before are not affected, since they are in range of the variables
there were (`Draft.InRange`). -/

namespace Dpll

variable {w w' : Valuation} {t l r v : Variable} {op : Bool → Bool → Bool} {e : Encoding}
  {d d' : Draft} {f left right : Nnf Variable} {c : Clause} {cs : List Clause} {n : Nat}

/-- Some literal of the clause is true. -/
def Clause.Holds (w : Valuation) (c : Clause) : Prop := ∃ l ∈ c, l.Holds w

@[simp]
theorem Clause.holds_nil : ¬ Holds w [] := by simp [Holds]

@[simp]
theorem Clause.holds_cons {l : Literal} : Holds w (l :: c) ↔ l.Holds w ∨ Holds w c := by
  simp [Holds]

/-- `w'` has the values of `w` for the first `n` variables. -/
def Valuation.AgreesBelow (n : Nat) (w w' : Valuation) : Prop := ∀ v, v.toNat < n → w' v = w v

namespace Valuation.AgreesBelow

theorem trans {m : Nat} {w'' : Valuation} (h : w.AgreesBelow n w') (h' : w'.AgreesBelow m w'')
    (hnm : n ≤ m) : w.AgreesBelow n w'' := fun v hv =>
  (h' v (Nat.lt_of_lt_of_le hv hnm)).trans (h v hv)

theorem holds (h : w.AgreesBelow n w') (hc : ∀ l ∈ c, l.var.toNat < n) (hw : c.Holds w) :
    c.Holds w' := by
  obtain ⟨l, hl, hlw⟩ := hw
  exact ⟨l, hl, (h l.var (hc l hl)).trans hlw⟩

theorem evaluate (h : w.AgreesBelow n w') (hf : ∀ v ∈ f.leaves, v.toNat < n) :
    f.evaluate w' = f.evaluate w :=
  Nnf.evaluate_congr fun v hv => h v (hf v hv)

end Valuation.AgreesBelow

/-- The clauses are about `t`, `l` and `r` only. They say that `t` implies an operation of `l` and `r`,
and with equivalences that it is implied by it. -/
structure Gate (e : Encoding) (op : Bool → Bool → Bool) (t l r : Variable) (cs : List Clause) :
    Prop where
  lt {n : Nat} : t.toNat < n → l.toNat < n → r.toNat < n → ∀ c ∈ cs, ∀ x ∈ c, x.var.toNat < n
  holds (w : Valuation) : (∀ c ∈ cs, c.Holds w) ↔
    (w.shown t = true → op (w.shown l) (w.shown r) = true) ∧
      (e = .equivalences → op (w.shown l) (w.shown r) = true → w.shown t = true)

theorem Gate.sound (h : Gate e op t l r cs) (hw : ∀ c ∈ cs, c.Holds w) (ht : w.shown t = true) :
    op (w.shown l) (w.shown r) = true :=
  ((h.holds w).mp hw).1 ht

/-- The clauses hold where `t` is the value of the operation. -/
theorem Gate.complete (h : Gate e op t l r cs) (hw : w.shown t = op (w.shown l) (w.shown r)) :
    ∀ c ∈ cs, c.Holds w :=
  (h.holds w).mpr ⟨fun ht => hw ▸ ht, fun _ hop => hw.trans hop⟩

namespace Encoding

theorem gate_neg (e : Encoding) (t x : Variable) :
    Gate e (fun x _ => !x) t x x (e.negClauses t x) where
  lt ht hx _ := by
    cases e <;> simp [negClauses, whenEquivalent, Variable.toNat_var_literal_lt, ht, hx]
  holds w := by cases e <;> simp [negClauses, whenEquivalent, Variable.holds_literal] <;> grind

theorem gate_and (e : Encoding) (t l r : Variable) :
    Gate e (· && ·) t l r (e.andClauses t l r) where
  lt ht hl hr := by
    cases e <;> simp [andClauses, whenEquivalent, Variable.toNat_var_literal_lt, ht, hl, hr]
  holds w := by cases e <;> simp [andClauses, whenEquivalent, Variable.holds_literal] <;> grind

theorem gate_or (e : Encoding) (t l r : Variable) :
    Gate e (· || ·) t l r (e.orClauses t l r) where
  lt ht hl hr := by
    cases e <;> simp [orClauses, whenEquivalent, Variable.toNat_var_literal_lt, ht, hl, hr]
  holds w := by cases e <;> simp [orClauses, whenEquivalent, Variable.holds_literal] <;> grind

end Encoding

namespace Draft

/-- The valuation satisfies every clause made so far. -/
def Models (d : Draft) (w : Valuation) : Prop := ∀ c ∈ d.clauses, c.Holds w

/-- Every literal is one of a variable made so far. -/
def InRange (d : Draft) : Prop := ∀ c ∈ d.clauses, ∀ l ∈ c, l.var.toNat < d.table.size

/-- `d'` goes on from `d`. -/
structure Continues (d d' : Draft) : Prop where
  size_le : d.table.size ≤ d'.table.size
  clauses {c : Clause} : c ∈ d.clauses → c ∈ d'.clauses

/-- `t` and the variables of the formula are among those made so far. -/
structure Covers (d : Draft) (t : Variable) (f : Nnf Variable) : Prop where
  lt : t.toNat < d.table.size
  leaves : ∀ v ∈ f.leaves, v.toNat < d.table.size

theorem Continues.refl (d : Draft) : d.Continues d := ⟨Nat.le_refl _, id⟩

theorem Continues.trans {d'' : Draft} (h : d.Continues d') (h' : d'.Continues d'') :
    d.Continues d'' :=
  ⟨Nat.le_trans h.size_le h'.size_le, fun hc => h'.clauses (h.clauses hc)⟩

theorem Continues.models (h : d.Continues d') (hd : d'.Models w) : d.Models w :=
  fun c hc => hd c (h.clauses hc)

theorem Continues.covers (h : d.Continues d') (hd : d.Covers t f) : d'.Covers t f where
  lt := Nat.lt_of_lt_of_le hd.lt h.size_le
  leaves v hv := Nat.lt_of_lt_of_le (hd.leaves v hv) h.size_le

@[simp]
theorem mem_clauses_add : c ∈ (d.add cs).clauses ↔ c ∈ d.clauses ∨ c ∈ cs := by
  simp [add, ← Array.mem_toList_iff]

@[simp]
theorem table_add : (d.add cs).table = d.table := rfl

theorem models_add : (d.add cs).Models w ↔ d.Models w ∧ ∀ c ∈ cs, c.Holds w := by
  simp [Models, or_imp, forall_and]

theorem continues_add (d : Draft) (cs : List Clause) : d.Continues (d.add cs) :=
  ⟨Nat.le_refl _, fun hc => mem_clauses_add.mpr (.inl hc)⟩

theorem InRange.add (hd : d.InRange) (hcs : ∀ c ∈ cs, ∀ l ∈ c, l.var.toNat < d.table.size) :
    (d.add cs).InRange := fun c hc => (mem_clauses_add.mp hc).elim (hd c) (hcs c)

theorem InRange.holds (hd : d.InRange) (hw : d.Models w) (h : w.AgreesBelow d.table.size w') :
    d.Models w' := fun c hc => h.holds (hd c hc) (hw c hc)

section standIn

variable (h : d.standIn f = (t, d'))
include h

theorem clauses_standIn : d'.clauses = d.clauses := by
  cases f <;> cases h <;> rfl

theorem continues_standIn : d.Continues d' where
  size_le := by cases f <;> cases h <;> simp
  clauses hc := clauses_standIn h ▸ hc

theorem inRange_standIn (hd : d.InRange) : d'.InRange := by
  intro c hc l hl
  rw [clauses_standIn h] at hc
  exact Nat.lt_of_lt_of_le (hd c hc l hl) (continues_standIn h).size_le

theorem models_standIn (hd : d.Models w) : d'.Models w := by
  rw [Models, clauses_standIn h]
  exact hd

theorem self_standIn : ∀ v, f = .var v → t = v := by
  rintro v rfl
  cases h
  rfl

theorem covers_standIn (hf : ∀ v ∈ f.leaves, v.toNat < d.table.size)
    (hsize : d'.table.size ≤ 2 ^ 32) : d'.Covers t f where
  lt := by
    cases f with
    | var =>
      cases h
      exact hf t (List.mem_singleton_self t)
    | neg | and | or =>
      cases h
      rw [VariableTable.size_push] at hsize ⊢
      rw [VariableTable.toNat_next hsize]
      exact Nat.lt_succ_self _
  leaves v hv := Nat.lt_of_lt_of_le (hf v hv) (continues_standIn h).size_le

/-- The variable that stands for a formula can be given its value. -/
theorem exists_standIn (hf : ∀ v ∈ f.leaves, v.toNat < d.table.size)
    (hsize : d'.table.size ≤ 2 ^ 32) (w : Valuation) :
    ∃ w', w.AgreesBelow d.table.size w' ∧ w' t = f.evaluate w := by
  cases f with
  | var v =>
    cases h
    exact ⟨w, fun _ _ => rfl, rfl⟩
  | neg | and | or =>
    cases h
    rw [VariableTable.size_push] at hsize
    refine ⟨Function.update w d.table.next _, fun v hv => ?_, Function.update_self ..⟩
    refine Function.update_of_ne (fun hnext => Nat.ne_of_lt hv ?_) _ _
    rw [hnext, VariableTable.toNat_next hsize]

end standIn

/-- `d'` goes on from `d` with variables for both parts of an operator and clauses that tie them to
`t`. -/
structure Tied (op : Bool → Bool → Bool) (t l r : Variable) (left right : Nnf Variable)
    (d d' : Draft) : Prop where
  continues : d.Continues d'
  covers_left : d'.Covers l left
  covers_right : d'.Covers r right
  inRange : d'.InRange
  extend {w : Valuation} : d.Models w → w t = op (left.evaluate w) (right.evaluate w) →
    ∃ w', w.AgreesBelow d.table.size w' ∧ d'.Models w' ∧
      w' l = left.evaluate w' ∧ w' r = right.evaluate w'

section

variable {d₁ d₂ : Draft} (hl : d.standIn left = (l, d₁)) (hr : d₁.standIn right = (r, d₂))
  (hleaves : ∀ v ∈ left.leaves ++ right.leaves, v.toNat < d.table.size)
include hl hr hleaves

theorem covers_parts (hsize : d₂.table.size ≤ 2 ^ 32) : d₂.Covers l left ∧ d₂.Covers r right := by
  have hc₁ := continues_standIn hl
  have hc₂ := continues_standIn hr
  have hleft := covers_standIn hl (fun v hv => hleaves v (List.mem_append_left _ hv))
    (Nat.le_trans hc₂.size_le hsize)
  refine ⟨hc₂.covers hleft, covers_standIn hr (fun v hv => ?_) hsize⟩
  exact Nat.lt_of_lt_of_le (hleaves v (List.mem_append_right _ hv)) hc₁.size_le

/-- Both parts of an operator can be given their values. -/
theorem exists_parts (hsize : d₂.table.size ≤ 2 ^ 32) (w : Valuation) :
    ∃ w', w.AgreesBelow d.table.size w' ∧ w' l = left.evaluate w' ∧ w' r = right.evaluate w' := by
  have hc₁ := continues_standIn hl
  have hsize₁ := Nat.le_trans (continues_standIn hr).size_le hsize
  have hleft := fun v hv => hleaves v (List.mem_append_left _ hv)
  have hright := fun v hv => hleaves v (List.mem_append_right _ hv)
  have hright₁ := fun v hv => Nat.lt_of_lt_of_le (hright v hv) hc₁.size_le
  obtain ⟨w₁, hag₁, hw₁⟩ := exists_standIn hl hleft hsize₁ w
  obtain ⟨w₂, hag₂, hw₂⟩ := exists_standIn hr hright₁ hsize w₁
  have hag : w.AgreesBelow d.table.size w₂ := hag₁.trans hag₂ hc₁.size_le
  refine ⟨w₂, hag, ?_, hw₂.trans (hag₂.evaluate hright₁).symm⟩
  rw [hag₂ l (covers_standIn hl hleft hsize₁).lt, hw₁, hag.evaluate hleft]

theorem tied_add (ht : t.toNat < d.table.size) (hgate : Gate e op t l r cs) (hd : d.InRange)
    (hsize : d₂.table.size ≤ 2 ^ 31) : Tied op t l r left right d (d₂.add cs) := by
  have hc : d.Continues d₂ := (continues_standIn hl).trans (continues_standIn hr)
  have hsize₂ : d₂.table.size ≤ 2 ^ 32 := by omega
  obtain ⟨hleft, hright⟩ := covers_parts hl hr hleaves hsize₂
  have ht₂ : t.toNat < d₂.table.size := Nat.lt_of_lt_of_le ht hc.size_le
  have hd₂ : d₂.InRange := inRange_standIn hr (inRange_standIn hl hd)
  have hadd := continues_add d₂ cs
  refine ⟨hc.trans hadd, hadd.covers hleft, hadd.covers hright,
    hd₂.add (hgate.lt ht₂ hleft.lt hright.lt), fun {w} hw hwt => ?_⟩
  obtain ⟨w', hag, hwl, hwr⟩ := exists_parts hl hr hleaves hsize₂ w
  refine ⟨w', hag, models_add.mpr ⟨?_, hgate.complete ?_⟩, hwl, hwr⟩
  · exact models_standIn hr (models_standIn hl (hd.holds hw hag))
  · have hshown {v : Variable} (hv : v.toNat < d₂.table.size) : w'.shown v = w' v :=
      Valuation.shown_eq (Nat.lt_of_lt_of_le hv hsize)
    rw [hshown ht₂, hshown hleft.lt, hshown hright.lt, hag t ht, hwt, hwl, hwr,
      hag.evaluate fun v hv => hleaves v (List.mem_append_left _ hv),
      hag.evaluate fun v hv => hleaves v (List.mem_append_right _ hv)]

end

end Draft

namespace Encoding

variable {d₁ d₂ : Draft}

theorem continues_encode (e : Encoding) (t : Variable) (f : Nnf Variable) (d : Draft) :
    d.Continues (e.encode t f d) := by
  induction f generalizing t d with
  | var => exact .refl d
  | neg => exact Draft.continues_add d _
  | and left right ihl ihr | or left right ihl ihr =>
    exact (Draft.continues_standIn rfl).trans <| (Draft.continues_standIn rfl).trans <|
      (Draft.continues_add ..).trans <| (ihl ..).trans (ihr ..)

/-- Where the clauses made for the formula hold, the variable that stands for it implies it. -/
def Sound (e : Encoding) (w : Valuation) (f : Nnf Variable) : Prop :=
  ∀ {t : Variable} {d : Draft}, (∀ v, f = .var v → t = v) → (e.encode t f d).Models w →
    w.shown t = true → f.evaluate w.shown = true

theorem Sound.parts (hleft : e.Sound w left) (hright : e.Sound w right)
    (hl : d.standIn left = (l, d₁)) (hr : d₁.standIn right = (r, d₂)) (hgate : Gate e op t l r cs)
    (hw : (e.encode r right (e.encode l left (d₂.add cs))).Models w) (ht : w.shown t = true) :
    op (w.shown l) (w.shown r) = true ∧ (w.shown l = true → left.evaluate w.shown = true) ∧
      (w.shown r = true → right.evaluate w.shown = true) := by
  -- later clauses do not take anything back, so the clauses of the gate and of both parts hold
  have hwleft := (continues_encode ..).models hw
  have hwgate := (Draft.models_add.mp ((continues_encode ..).models hwleft)).2
  exact ⟨hgate.sound hwgate ht, hleft (Draft.self_standIn hl) hwleft,
    hright (Draft.self_standIn hr) hw⟩

theorem sound (e : Encoding) (w : Valuation) (f : Nnf Variable) : e.Sound w f := by
  intro t d hself hw ht
  induction f generalizing t d with
  | var v => exact hself v rfl ▸ ht
  | neg x => exact (gate_neg e t x).sound (Draft.models_add.mp hw).2 ht
  | and left right ihl ihr =>
    obtain ⟨hop, hl, hr⟩ := Sound.parts ihl ihr rfl rfl (gate_and ..) hw ht
    rw [Bool.and_eq_true] at hop
    exact Bool.and_eq_true_iff.mpr ⟨hl hop.1, hr hop.2⟩
  | or left right ihl ihr =>
    obtain ⟨hop, hl, hr⟩ := Sound.parts ihl ihr rfl rfl (gate_or ..) hw ht
    rw [Bool.or_eq_true] at hop
    exact Bool.or_eq_true_iff.mpr (hop.imp hl hr)

/-- The clauses made for the formula are in range, and a valuation in which the variable that stands
for it has its value extends to the new variables. -/
def Complete (e : Encoding) (f : Nnf Variable) : Prop :=
  ∀ {t : Variable} {d : Draft}, d.Covers t f → d.InRange →
    (e.encode t f d).table.size ≤ 2 ^ 31 →
    (e.encode t f d).InRange ∧
      ∀ w, d.Models w → w t = f.evaluate w →
        ∃ w', w.AgreesBelow d.table.size w' ∧ (e.encode t f d).Models w'

theorem Complete.parts (hleft : e.Complete left) (hright : e.Complete right)
    (h : d.Tied op t l r left right d')
    (hsize : (e.encode r right (e.encode l left d')).table.size ≤ 2 ^ 31) :
    (e.encode r right (e.encode l left d')).InRange ∧
      ∀ w, d.Models w → w t = op (left.evaluate w) (right.evaluate w) →
        ∃ w', w.AgreesBelow d.table.size w' ∧
          (e.encode r right (e.encode l left d')).Models w' := by
  have hc := continues_encode e l left d'
  have hsizel := Nat.le_trans (continues_encode e r right _).size_le hsize
  obtain ⟨hdl, hextl⟩ := hleft h.covers_left h.inRange hsizel
  obtain ⟨hdr, hextr⟩ := hright (hc.covers h.covers_right) hdl hsize
  refine ⟨hdr, fun w hw hwt => ?_⟩
  obtain ⟨w₁, hag₁, hw₁, hwl, hwr⟩ := h.extend hw hwt
  obtain ⟨w₂, hag₂, hw₂⟩ := hextl w₁ hw₁ hwl
  -- the variables of the left part are new, so the right part has kept its value
  have hwr₂ : w₂ r = right.evaluate w₂ := by
    rw [hag₂ r h.covers_right.lt, hwr, hag₂.evaluate h.covers_right.leaves]
  obtain ⟨w₃, hag₃, hw₃⟩ := hextr w₂ hw₂ hwr₂
  have hag : w₁.AgreesBelow d'.table.size w₃ := hag₂.trans hag₃ hc.size_le
  exact ⟨w₃, hag₁.trans hag h.continues.size_le, hw₃⟩

theorem complete (e : Encoding) (f : Nnf Variable) : e.Complete f := by
  intro t d hf hd hsize
  induction f generalizing t d with
  | var v => exact ⟨hd, fun w hw _ => ⟨w, fun _ _ => rfl, hw⟩⟩
  | neg x =>
    have hx : x.toNat < d.table.size := hf.leaves x (List.mem_singleton_self x)
    have hgate := gate_neg e t x
    refine ⟨hd.add (hgate.lt hf.lt hx hx), fun w hw hwt => ⟨w, fun _ _ => rfl, ?_⟩⟩
    refine Draft.models_add.mpr ⟨hw, hgate.complete ?_⟩
    rw [Valuation.shown_eq (Nat.lt_of_lt_of_le hf.lt hsize),
      Valuation.shown_eq (Nat.lt_of_lt_of_le hx hsize), hwt]
    rfl
  | and left right ihl ihr =>
    have hsize₂ := Nat.le_trans ((continues_encode ..).trans (continues_encode ..)).size_le hsize
    have htied := Draft.tied_add rfl rfl hf.leaves hf.lt (gate_and e t _ _) hd hsize₂
    exact Complete.parts ihl ihr htied hsize
  | or left right ihl ihr =>
    have hsize₂ := Nat.le_trans ((continues_encode ..).trans (continues_encode ..)).size_le hsize
    have htied := Draft.tied_add rfl rfl hf.leaves hf.lt (gate_or e t _ _) hd hsize₂
    exact Complete.parts ihl ihr htied hsize

end Encoding

namespace Draft

theorem inRange_start (table : VariableTable) : InRange ⟨table, #[]⟩ := by simp [InRange]

theorem models_start (table : VariableTable) : Models ⟨table, #[]⟩ w := by simp [Models]

end Draft

namespace NnfTree

variable {tree : NnfTree}

section

variable (h : Draft.standIn ⟨tree.table, #[]⟩ tree.root = (t, d))
include h

theorem numVars_toClauses :
    (tree.toClauses e).cnf.numVars = (e.encode t tree.root d).table.size := by
  simp only [toClauses, h, Cnf.numVars, Draft.table_add]

theorem mem_toClauses : c ∈ (tree.toClauses e).cnf.clauses ↔
    c ∈ ((e.encode t tree.root d).add [[t.literal true]]).clauses := by
  simp only [toClauses, h, Array.mem_toList_iff]

theorem models_toClauses :
    (tree.toClauses e).cnf.Models w ↔ (e.encode t tree.root d).Models w ∧ w.shown t = true := by
  have hroot : (∀ c ∈ [[t.literal true]], Clause.Holds w c) ↔ w.shown t = true := by
    simp [Variable.holds_literal]
  rw [← hroot, ← Draft.models_add]
  exact forall_congr' fun c => imp_congr_left (mem_toClauses h)

theorem size_root_le {n : Nat} (hsize : (tree.toClauses e).cnf.numVars ≤ n) : d.table.size ≤ n :=
  Nat.le_trans (e.continues_encode t tree.root d).size_le (numVars_toClauses h ▸ hsize)

variable (htree : tree.InRange) (hsize : (tree.toClauses e).cnf.numVars ≤ 2 ^ 31)
include htree hsize

theorem covers_root : d.Covers t tree.root :=
  Draft.covers_standIn h htree (Nat.le_trans (size_root_le h hsize) (by decide))

theorem complete_root : (e.encode t tree.root d).InRange ∧
    ∀ w, d.Models w → w t = tree.root.evaluate w →
      ∃ w', w.AgreesBelow d.table.size w' ∧ (e.encode t tree.root d).Models w' :=
  e.complete tree.root (covers_root h htree hsize) (Draft.inRange_standIn h (Draft.inRange_start _))
    (numVars_toClauses h ▸ hsize)

end

theorem size_le_numVars (tree : NnfTree) (e : Encoding) :
    tree.table.size ≤ (tree.toClauses e).cnf.numVars := by
  rcases h : Draft.standIn ⟨tree.table, #[]⟩ tree.root with ⟨t, d⟩
  rw [numVars_toClauses h]
  exact ((Draft.continues_standIn h).trans (e.continues_encode ..)).size_le

/-- A valuation of the clauses satisfies the formula, as far as literals show it. -/
theorem evaluate_of_models (hw : (tree.toClauses e).cnf.Models w) :
    tree.root.evaluate w.shown = true := by
  obtain ⟨hmodels, hroot⟩ := (models_toClauses rfl).mp hw
  exact e.sound w tree.root (Draft.self_standIn rfl) hmodels hroot

theorem inRange_toClauses (htree : tree.InRange)
    (hsize : (tree.toClauses e).cnf.numVars ≤ 2 ^ 31) : (tree.toClauses e).cnf.InRange := by
  rcases h : Draft.standIn ⟨tree.table, #[]⟩ tree.root with ⟨t, d⟩
  have hlt := ((e.continues_encode t tree.root d).covers (covers_root h htree hsize)).lt
  intro c hc
  rw [numVars_toClauses h]
  refine (complete_root h htree hsize).1.add ?_ c ((mem_toClauses h).mp hc)
  simpa using Variable.toNat_var_literal_lt hlt

/-- A valuation extends to the variables of the operators, the root getting the value of the
formula. -/
theorem exists_encoded (htree : tree.InRange) (hsize : (tree.toClauses e).cnf.numVars ≤ 2 ^ 31)
    (h : Draft.standIn ⟨tree.table, #[]⟩ tree.root = (t, d)) (w : Valuation) :
    ∃ w', w.AgreesBelow tree.table.size w' ∧ (e.encode t tree.root d).Models w' ∧
      w'.shown t = tree.root.evaluate w := by
  have hlt := (covers_root h htree hsize).lt
  have hsize₁ := size_root_le h hsize
  obtain ⟨w₁, hag₁, hw₁⟩ := Draft.exists_standIn h htree (by omega) w
  have hw₁' : w₁ t = tree.root.evaluate w₁ := hw₁.trans (hag₁.evaluate htree).symm
  obtain ⟨w₂, hag₂, hw₂⟩ := (complete_root h htree hsize).2 w₁
    (Draft.models_standIn h (Draft.models_start _)) hw₁'
  refine ⟨w₂, hag₁.trans hag₂ (Draft.continues_standIn h).size_le, hw₂, ?_⟩
  rw [Valuation.shown_eq (by omega), hag₂ t hlt, hw₁]

/-- A valuation that satisfies the formula extends to the variables of the operators. -/
theorem exists_models (htree : tree.InRange) (hsize : (tree.toClauses e).cnf.numVars ≤ 2 ^ 31)
    (hw : tree.root.evaluate w = true) :
    ∃ w', w.AgreesBelow tree.table.size w' ∧ (tree.toClauses e).cnf.Models w' := by
  obtain ⟨w', hag, hmodels, hroot⟩ := exists_encoded htree hsize rfl w
  exact ⟨w', hag, (models_toClauses rfl).mpr ⟨hmodels, hroot.trans hw⟩⟩

end NnfTree

end Dpll
