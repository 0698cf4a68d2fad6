import Dpll.Proofs.Adjacency.Propagation
import Dpll.Proofs.Adjacency.Removals
import Dpll.Proofs.Watched.Books

/-! How much unit propagation does, in any session. Its loop is given as a relation with one case a way
to go on or to end (`Adjacency.Rounds`, `Watched.Rounds`), which says what is forced in turn. Over
shrinking clauses a forced literal satisfies the clause that it came from, also where its variable has
both values; over watched clauses it is a literal of a variable that had none. -/

namespace Dpll

open Backtrackable

variable {n m : Nat} {cs : List (List (BoundedLiteral n))}

/-! ### Shrinking clauses -/

namespace Adjacency

/-- The rounds of propagation at level `k` lead from the one formula to the other and force the
literals of the list in turn. -/
inductive Rounds (k : Level) : Adjacency n m → List (BoundedLiteral n) → Adjacency n m → Prop
  | conflict {f} : f.isUnsatisfiable = true → Rounds k f [] f
  | settled {f} : f.isUnsatisfiable = false → f.unitLiteral? = none → Rounds k f [] f
  | force {f l ls g} : f.isUnsatisfiable = false → f.unitLiteral? = some l →
      Rounds k { f.assign l k with propagationSteps := (f.assign l k).propagationSteps + 1 } ls g →
      Rounds k f (l :: ls) g

variable {k : Level} {l : BoundedLiteral n}

namespace Rounds

variable {f g : Adjacency n m} {ls : List (BoundedLiteral n)}

theorem propagationSteps_eq (h : Rounds k f ls g) :
    g.propagationSteps = f.propagationSteps + ls.length := by
  induction h with
  | conflict | settled => rfl
  | force _ _ _ ih =>
    rw [ih, propagationSteps_assign, List.length_cons]
    lia

/-- What is forced is recorded at the level of the call. -/
theorem entries_perm (h : Rounds k f ls g) :
    g.assigned.entries.Perm (ls.map (k, ·) ++ f.assigned.entries) := by
  induction h with
  | conflict | settled => exact .refl _
  | force _ _ _ ih =>
    refine ih.trans (.trans (.append_left _ ?_) List.perm_middle)
    rw [assigned_assign]
    exact LevelTrail.perm_record

theorem assignment_perm (h : Rounds k f ls g) : (assignment g).Perm (assignment f ++ ls) := by
  have hliterals : (g.assigned.entries.map (·.2)).Perm (ls ++ f.assigned.entries.map (·.2)) := by
    simpa [Function.comp_def] using h.entries_perm.map (·.2)
  have hreverse (f : Adjacency n m) : (assignment f).Perm (f.assigned.entries.map (·.2)) :=
    List.reverse_perm _
  calc (assignment g).Perm (g.assigned.entries.map (·.2)) := hreverse g
    List.Perm _ (ls ++ f.assigned.entries.map (·.2)) := hliterals
    List.Perm _ (f.assigned.entries.map (·.2) ++ ls) := List.perm_append_comm
    List.Perm _ (assignment f ++ ls) := (hreverse f).symm.append_right ls

end Rounds

variable {f : Adjacency n cs.length}

/-- A literal that is forced is one of the clause that forces it, which becomes satisfied. -/
theorem Restorable.numUnsatisfied_assign_lt (h : Restorable cs f) (hl : f.unitLiteral? = some l) :
    (f.assign l k).numUnsatisfied < f.numUnsatisfied := by
  obtain ⟨i, hi⟩ := exists_of_unitLiteral? hl
  obtain ⟨hs, hlive⟩ := (ShrinkingClause.unitLiteral?_eq_some _).mp hi
  have hmem : l ∈ (f.clauses.get i).live := by simp [hlive]
  have hsub := ShrinkingClause.sublist_of_putBack? (h.restored i)
  have hocc : i ∈ f.occurrences.get l.position := by
    rw [h.occurrences, mem_occurrences]
    exact ⟨l, List.mem_eraseDups.mp (hsub.mem hmem), rfl⟩
  have hnodup : (f.occurrences.get l.position).toList.Nodup := h.occurrences ▸ nodup_occurrences _
  exact numUnsatisfied_assign_lt_of_mem hnodup (Array.mem_toList_iff.mpr hocc) hs hmem

/-- The rounds come to an end before the bound on their number is met. -/
theorem Restorable.rounds_propagateFor (h : Restorable cs f) {rounds : Nat}
    (hrounds : f.numUnsatisfied ≤ rounds) : ∃ ls, Rounds k f ls (f.propagateFor k rounds) ∧
      ls.length + (f.propagateFor k rounds).numUnsatisfied ≤ f.numUnsatisfied := by
  fun_induction Adjacency.propagateFor k rounds f with
  | case1 f =>
    refine ⟨[], ?_, by simp⟩
    cases hu : f.isUnsatisfiable with
    | true => exact .conflict hu
    | false =>
      -- no round is left, so every clause is satisfied and none of them forces a literal
      refine .settled hu ?_
      cases hl : f.unitLiteral? with
      | none => rfl
      | some l =>
        have hlt := h.numUnsatisfied_assign_lt (k := k) hl
        lia
  | case2 rounds f hu => exact ⟨[], .conflict hu, by simp⟩
  | case3 rounds f hu hl => exact ⟨[], .settled (Bool.eq_false_iff.mpr hu) hl, by simp⟩
  | case4 rounds f hu l hl f' ih =>
    have hlt := h.numUnsatisfied_assign_lt (k := k) hl
    have hnext : f'.numUnsatisfied ≤ rounds := Nat.le_of_lt_succ (Nat.lt_of_lt_of_le hlt hrounds)
    obtain ⟨ls, hls, hlen⟩ := ih (h.assign.of_propagationSteps _) hnext
    refine ⟨l :: ls, .force (Bool.eq_false_iff.mpr hu) hl hls, ?_⟩
    rw [List.length_cons, Nat.add_right_comm]
    exact Nat.le_trans (Nat.succ_le_succ hlen) hlt

end Adjacency

/-! ### Watched clauses -/

namespace BoundedLiteral

variable {l : BoundedLiteral n}

theorem slot_div (l : BoundedLiteral n) : l.slot.val / 2 = l.position.val :=
  (Literal.toNat_var l.toLiteral).symm

/-- A slot of a variable is that of a literal of the variable or that of its negation. -/
theorem slot_cases {s : Fin (2 * n)} (h : s.val / 2 = l.position.val) :
    s = l.slot ∨ s = (-l).slot := by
  have hneg := (-l).slot_div
  have hsign := Literal.isPositive_neg l.toLiteral
  rw [Literal.isPositive_eq, Literal.isPositive_eq, ← decide_not, decide_eq_decide] at hsign
  rw [position_neg, ← l.slot_div] at hneg
  rw [← l.slot_div] at h
  simp only [slot, toLiteral_neg, Fin.ext_iff] at h hneg ⊢
  lia

end BoundedLiteral

namespace Watched

/-- Neither literal of the variable is true. -/
def IsUndecided (f : Watched n m) (v : Fin n) : Prop :=
  ∀ s : Fin (2 * n), s.val / 2 = v.val → f.levels.entries[s] = none

instance {f : Watched n m} {v : Fin n} : Decidable (f.IsUndecided v) :=
  inferInstanceAs (Decidable (∀ s : Fin (2 * n), s.val / 2 = v.val → f.levels.entries[s] = none))

/-- The number of variables of which neither literal is true. -/
def numUndecided (f : Watched n m) : Nat := (List.finRange n).countP fun v => f.IsUndecided v

/-- The literal that looking at a clause forces. -/
def forced? (f : Watched n m) (i : Fin m) : Option (BoundedLiteral n) :=
  let c := f.clauses.get i
  if c.knownSatisfied || c.literals.any f.isTrue then none
  else
    match c.literals.toList.filter f.isOpen with
    | [l] => some l
    | _ => none

/-- The rounds of propagation at level `k` lead from the one formula to the other and force the
literals of the list in turn. -/
inductive Rounds (k : Level) : Watched n m → List (BoundedLiteral n) → Watched n m → Prop
  | conflict {f} : f.isUnsatisfiable = true → Rounds k f [] f.clearQueue
  | drained {f} : f.isUnsatisfiable = false → f.queue.pop? = none → Rounds k f [] f
  | look {f i q ls g} : f.isUnsatisfiable = false → f.queue.pop? = some (i, q) →
      Rounds k ((f.dequeue i q).examine i k) ls g →
      Rounds k f (((f.dequeue i q).forced? i).toList ++ ls) g

variable {k : Level} {l : BoundedLiteral n} {ls : List (BoundedLiteral n)}

section

variable {f g : Watched n m} {i : Fin m}

theorem isUndecided_position_iff : f.IsUndecided l.position ↔ f.isOpen l = true := by
  have hopen : f.isOpen l = true ↔
      f.levels.entries[l.slot] = none ∧ f.levels.entries[(-l).slot] = none := by
    simp [isOpen, isTrue, LiteralTable.get]
  rw [hopen]
  constructor
  · intro h
    refine ⟨h _ l.slot_div, h _ ?_⟩
    rw [(-l).slot_div, BoundedLiteral.position_neg]
  · rintro ⟨hl, hneg⟩ s hs
    rcases BoundedLiteral.slot_cases hs with rfl | rfl
    · exact hl
    · exact hneg

theorem numUndecided_congr (h : g.levels = f.levels) : g.numUndecided = f.numUndecided := by
  have hiff (v) : g.IsUndecided v ↔ f.IsUndecided v := by rw [IsUndecided, h, IsUndecided]
  simp only [numUndecided, hiff]

/-- A literal that is made true decides its variable. -/
theorem numUndecided_assign_lt (h : f.isOpen l = true) :
    (f.assign l k).numUndecided < f.numUndecided := by
  refine countP_lt_countP (fun v _ hv => ?_) (List.mem_finRange l.position) ?_ ?_
  · rw [decide_eq_true_eq] at hv ⊢
    intro s hs
    have hnone := hv s hs
    rw [levels_assign] at hnone
    simp only [LiteralTable.set, Fin.getElem_fin, Vector.getElem_set] at hnone
    split at hnone
    · cases hnone
    · exact hnone
  · exact decide_eq_true (isUndecided_position_iff.mpr h)
  · rw [decide_eq_true_eq, isUndecided_position_iff, isOpen, isTrue, levels_assign,
      LiteralTable.get_set]
    simp

theorem rounds_unitPropagate (f : Watched n m) (k : Level) :
    ∃ ls, Rounds k f ls (f.unitPropagate k) := by
  fun_induction unitPropagate f k with
  | case1 f hu => exact ⟨[], .conflict hu⟩
  | case2 f hu hpop => exact ⟨[], .drained (Bool.eq_false_iff.mpr hu) hpop⟩
  | case3 f hu i q hpop ih =>
    obtain ⟨ls, hls⟩ := ih
    exact ⟨_, .look (Bool.eq_false_iff.mpr hu) hpop hls⟩

end

/-- From `f` to `g` the literals of the list became true in turn, were counted, and each of them
decided a variable. -/
structure Gains (ls : List (BoundedLiteral n)) (f g : Watched n m) : Prop where
  trail : g.trail = ls.reverse ++ f.trail
  propagationSteps : g.propagationSteps = f.propagationSteps + ls.length
  numUndecided : ls.length + g.numUndecided ≤ f.numUndecided

namespace Gains

variable {f g h : Watched n m} {ls ls' : List (BoundedLiteral n)}

theorem nil (htrail : g.trail = f.trail) (hsteps : g.propagationSteps = f.propagationSteps)
    (hlevels : g.levels = f.levels) : Gains [] f g :=
  ⟨htrail, hsteps, by rw [numUndecided_congr hlevels, List.length_nil, Nat.zero_add]⟩

theorem append (H : Gains ls f g) (H' : Gains ls' g h) : Gains (ls ++ ls') f h where
  trail := by rw [H'.trail, H.trail, List.reverse_append, List.append_assoc]
  propagationSteps := by
    rw [H'.propagationSteps, H.propagationSteps, List.length_append, Nat.add_assoc]
  numUndecided := by
    rw [List.length_append, Nat.add_assoc]
    exact Nat.le_trans (Nat.add_le_add_left H'.numUndecided _) H.numUndecided

end Gains

variable {f g : Watched n cs.length} {i : Fin cs.length} {q : Queue (Fin cs.length)}

theorem gains_dequeue : Gains [] f (f.dequeue i q) := .nil rfl rfl rfl

theorem gains_clearQueue : Gains [] f f.clearQueue := .nil rfl rfl rfl

theorem gains_markSatisfied : Gains [] f (f.markSatisfied i k) := by
  refine .nil ?_ ?_ (levels_markSatisfied f i k)
  · unfold markSatisfied
    split <;> rfl
  · unfold markSatisfied
    split <;> rfl

theorem Orderly.gains_assign (H : Orderly cs f) (ho : f.isOpen l = true) :
    Gains [l] f ({ f with propagationSteps := f.propagationSteps + 1 }.assign l k) := by
  have H' : Orderly cs { f with propagationSteps := f.propagationSteps + 1 } :=
    H.retains retains_report H.logged.report
  obtain ⟨hm, -, -⟩ := maintains_assign (l := l) (k := k) H'.placed H'.logged
  refine ⟨hm.trail, hm.propagationSteps, ?_⟩
  have hlt := numUndecided_assign_lt (f := { f with propagationSteps := f.propagationSteps + 1 })
    (k := k) ho
  rw [List.length_singleton, Nat.add_comm]
  exact hlt

/-- Looking at a clause forces at most its last open literal. -/
theorem Orderly.gains_examine (H : Orderly cs f) :
    Gains (f.forced? i).toList f (f.examine i k) := by
  unfold Watched.examine forced?
  dsimp only
  cases hk : (f.clauses.get i).knownSatisfied with
  | true =>
    simp only [Bool.true_or, if_true]
    exact .nil rfl rfl rfl
  | false =>
    cases hany : (f.clauses.get i).literals.any f.isTrue with
    | true =>
      simp only [Bool.or_true, Bool.false_eq_true, if_true, if_false]
      exact gains_markSatisfied
    | false =>
      simp only [Bool.or_false, Bool.false_eq_true, if_false]
      cases hopen : (f.clauses.get i).literals.toList.filter f.isOpen with
      | nil => exact .nil rfl rfl rfl
      | cons l rest =>
        cases rest with
        | nil =>
          have ho : f.isOpen l = true := (List.mem_filter.mp (hopen ▸ List.mem_singleton_self l)).2
          exact (H.gains_assign ho).append gains_markSatisfied
        | cons x rest => exact .nil rfl rfl rfl

theorem Rounds.gains (h : Rounds k f ls g) (H : Orderly cs f) : Gains ls f g := by
  induction h with
  | conflict => exact gains_clearQueue
  | drained => exact .nil rfl rfl rfl
  | @look f i q ls g _ hpop _ ih =>
    have hlook := (H.dequeue hpop).gains_examine (i := i) (k := k)
    exact (gains_dequeue.append hlook).append (ih (H.dequeue hpop).examine)

end Watched

/-- Whatever was called, unit propagation comes to an end. It forces at most as many literals as there
are clauses not satisfied or, over watched clauses, variables without a value; they are added to the
literals that are true, and each is counted. -/
theorem unitPropagate_rounds (cs : List (List (BoundedLiteral n))) (ms : Moves n) (k : Level) :
    (let f := ms.after (Adjacency.ofClauses cs)
      let g := unitPropagate f k
      ∃ ls, Adjacency.Rounds k f ls g ∧ ls.length ≤ f.numUnsatisfied ∧
        propagationSteps g = propagationSteps f + ls.length ∧
        (assignment g).Perm (assignment f ++ ls)) ∧
    (let f := ms.after (Watched.ofClauses cs)
      let g := unitPropagate f k
      ∃ ls, Watched.Rounds k f ls g ∧ ls.length ≤ f.numUndecided ∧
        propagationSteps g = propagationSteps f + ls.length ∧
        assignment g = assignment f ++ ls) := by
  constructor
  · intro f g
    have H : Adjacency.Restorable cs f := .after ms
    obtain ⟨ls, h, hlen⟩ := H.rounds_propagateFor (k := k) (Nat.le_refl f.numUnsatisfied)
    exact ⟨ls, h, by lia, h.propagationSteps_eq, h.assignment_perm⟩
  · intro f g
    have H : Watched.Orderly cs f := .after ms
    obtain ⟨ls, h⟩ := f.rounds_unitPropagate k
    have hgains := h.gains H
    refine ⟨ls, h, Nat.le_trans (Nat.le_add_right _ _) hgains.numUndecided, hgains.propagationSteps, ?_⟩
    have htrail := congrArg List.reverse hgains.trail
    rwa [List.reverse_append, List.reverse_reverse] at htrail

/-- With `-x` recorded twice, undoing takes one of the records back and the clause with it, which then
forces `x`. Both literals are recorded in the end. -/
example :
    let x : BoundedLiteral 2 := ⟨⟨0⟩, by decide⟩
    let y : BoundedLiteral 2 := ⟨⟨2⟩, by decide⟩
    let f := Moves.after (Adjacency.ofClauses [[x, y]])
      [.assign (-y) 2, .undo 2, .assign (-x) 1, .assign (-x) 3]
    assignment f = [-x, -y] ∧ assignment (f.unitPropagate 2) = [-x, -y, x] := by
  decide +kernel

end Dpll
