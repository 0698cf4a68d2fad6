import Dpll.Proofs.UnitClosure

/-! What a run of decisions relies on in a formula. A formula stands in one of three kinds of
state: literals are still to be propagated, propagation has ended without a conflict, or it has met
one. Each level below has a trail to return to, so a state lies at the level that is the number of
those trails. `Laws` says how the operations lead from one kind of state to another. -/

namespace Dpll

open Backtrackable

variable {n : Nat}

/-- The states of a formula that enforces the clauses `cs`, and what the operations make of them.
The trails `As` are those of the levels below, highest first. -/
structure Laws (σ : Type) [Backtrackable σ (BoundedLiteral n)]
    (cs : List (List (BoundedLiteral n))) where
  /-- The literals of `B` are true, and those of this level have not been propagated. -/
  Pending (B : Trail n) (As : List (Trail n)) : σ → Prop
  /-- Propagation has ended with the literals of `A` true. -/
  Settled (A : Trail n) (As : List (Trail n)) : σ → Prop
  /-- Propagation has met a conflict. -/
  Failed (As : List (Trail n)) : σ → Prop
  /-- A settled formula may have no live literal and not know that it is satisfied. -/
  Stuck : Prop
  assume : ∀ {B f l}, Pending B [] f → B.Open l → Pending (l :: B) [] (assign f l 0)
  decide : ∀ {A As f l}, Settled A As f → A.Open l →
    Pending (l :: A) (A :: As) (assign f l (As.length + 1))
  propagate : ∀ {B As f}, Pending B As f →
    (∃ new, Settled (new ++ B) As (unitPropagate f As.length) ∧
      propagationSteps (unitPropagate f As.length) = propagationSteps f + new.length ∧
      ∀ l ∈ new, UnitClosure cs (· ∈ B) l) ∨
    (Failed As (unitPropagate f As.length) ∧ ∃ c ∈ cs, ∀ l ∈ c, UnitClosure cs (· ∈ B) (-l))
  rest : ∀ {A As f}, Settled A As f → Pending A As f
  stay : ∀ {A As f}, Settled A As f → Settled A As (backtrack f As.length)
  undo_settled : ∀ {A B Bs As f}, Settled A (Bs ++ B :: As) f →
    Settled B As (backtrack f As.length)
  undo_failed : ∀ {B Bs As f}, Failed (Bs ++ B :: As) f → Settled B As (backtrack f As.length)
  consistent : ∀ {A As f}, Settled A As f → A.Consistent
  assignment_eq : ∀ {A As f}, Settled A As f → assignment f = A.reverse
  not_unsatisfiable : ∀ {A As f}, Settled A As f → isUnsatisfiable f = false
  open_of_live : ∀ {A As f c l}, Settled A As f → c ∈ liveClauses f → l ∈ c → A.Open l
  satisfies : ∀ {A As f}, Settled A As f → isSatisfied f = true → ∀ c ∈ cs, A.Satisfies c
  leaf : ∀ {A As f}, Settled A As f → isSatisfied f = false → (∀ c ∈ liveClauses f, c = []) →
    Stuck ∧ ∀ c ∈ cs, A.Satisfies c
  unsatisfiable : ∀ {As f}, Failed As f → isUnsatisfiable f = true
  not_satisfied : ∀ {As f}, Failed As f → isSatisfied f = false

namespace Laws

variable {σ τ : Type} [Backtrackable σ (BoundedLiteral n)] [Backtrackable τ (BoundedLiteral n)]
  {cs : List (List (BoundedLiteral n))}

/-- Propagation without a conflict settles every clause. -/
def Settles (L : Laws σ cs) : Prop := ∀ {A As f}, L.Settled A As f → ∀ c ∈ cs, A.Settles c

/-- The laws of a formula that is in none of the states. -/
def never (σ : Type) [Backtrackable σ (BoundedLiteral n)] (cs : List (List (BoundedLiteral n))) :
    Laws σ cs where
  Pending _ _ _ := False
  Settled _ _ _ := False
  Failed _ _ := False
  Stuck := False
  assume h _ := h
  decide h _ := h
  propagate h := h.elim
  rest h := h
  stay h := h
  undo_settled h := h
  undo_failed h := h
  consistent h := h.elim
  assignment_eq h := h.elim
  not_unsatisfiable h := h.elim
  open_of_live h := h.elim
  satisfies h := h.elim
  leaf h := h.elim
  unsatisfiable h := h.elim
  not_satisfied h := h.elim

variable (L : Laws σ cs) {As : List (Trail n)} {A B : Trail n} {f : σ} {as : List (BoundedLiteral n)}

/-- Assumptions at level zero, before any propagation. -/
theorem assume_all (h : L.Pending B [] f) (has : Trail.Consistent (as.reverse ++ B)) :
    L.Pending (as.reverse ++ B) [] (as.foldl (fun f l => assign f l 0) f) := by
  induction as generalizing B f with
  | nil => exact h
  | cons l as ih =>
    rw [List.reverse_cons, List.append_assoc] at has ⊢
    refine ih (L.assume h ?_) has
    exact (Trail.consistent_cons.mp (has.sublist ((List.sublist_append_right _ _).map _))).1

/-- Undoing everything above level zero returns to the lowest trail. -/
theorem undo_all (h : L.Settled A As f) :
    ∃ R, (A :: As).getLast? = some R ∧ L.Settled R [] (backtrack f 0) := by
  rcases List.eq_nil_or_concat As with rfl | ⟨Bs, R, rfl⟩
  · exact ⟨A, rfl, L.stay h⟩
  · rw [List.concat_eq_append] at h ⊢
    exact ⟨R, by rw [← List.cons_append, List.getLast?_concat], L.undo_settled h⟩

theorem undo_all_failed (h : L.Failed As f) (hne : As ≠ []) :
    ∃ R, As.getLast? = some R ∧ L.Settled R [] (backtrack f 0) := by
  rcases List.eq_nil_or_concat As with rfl | ⟨Bs, R, rfl⟩
  · exact absurd rfl hne
  · rw [List.concat_eq_append] at h ⊢
    exact ⟨R, List.getLast?_concat, L.undo_failed h⟩

end Laws

end Dpll
