import Dpll.Proofs.Adjacency.Propagation
import Dpll.Proofs.Moves

/-! The adjacency-list formula as a function of its assignment. After calls at levels that never go
below the current one, whatever it shows can be computed from the clauses and the literals in force
alone (`Adjacency.recomputed`), and propagation does what it would do without a formula that is kept up
to date (`Trail.Saturates`). -/

namespace Dpll

open Backtrackable

variable {n : Nat}

namespace Trail

/-- The only literal not false of a clause without a true one. -/
def unitLiteral? (A : Trail n) (c : List (BoundedLiteral n)) : Option (BoundedLiteral n) :=
  if A.Satisfies c then none
  else
    match c.eraseDups.filter (-· ∉ A) with
    | [l] => some l
    | _ => none

/-- Propagation from the trail `A` ends with `B`: until a clause is falsified or there is no unit
clause, the literal of the first unit clause is put on top. -/
inductive Saturates (cs : List (List (BoundedLiteral n))) : Trail n → Trail n → Prop
  | falsified {A : Trail n} : (∃ c ∈ cs, A.Falsifies c) → Saturates cs A A
  | settled {A : Trail n} : (∀ c ∈ cs, A.unitLiteral? c = none) → Saturates cs A A
  | force {A B : Trail n} : (∀ c ∈ cs, ¬A.Falsifies c) → cs.findSome? A.unitLiteral? = some l →
    Saturates cs (l :: A) B → Saturates cs A B

end Trail

variable {cs : List (List (BoundedLiteral n))} {ls : List (BoundedLiteral n)}
  {l : BoundedLiteral n} {k : Level}

theorem ShrinkingClause.unitLiteral?_replay {E : Timeline n} (hE : E.literals.Consistent) :
    ((ofLiterals ls).replay E).unitLiteral? = E.literals.unitLiteral? ls := by
  unfold Trail.unitLiteral?
  split
  · rename_i hs
    rw [unitLiteral?, (isSatisfied_replay hE).mpr hs]
  · rename_i hs
    have hsat : ((ofLiterals ls).replay E).isSatisfied = false := by
      rw [Bool.eq_false_iff, ne_eq, isSatisfied_replay hE]
      exact hs
    rw [unitLiteral?, hsat, live_replay hE hs]
    split
    · rename_i _ _ _ hl
      rw [hl]
    · rename_i hl
      split
      · rename_i hone
        exact absurd hone (hl _ rfl)
      · rfl

namespace Adjacency

variable {f : Adjacency n cs.length} {c : Level}

namespace Follows

theorem unitLiteral?_eq (h : Follows cs f c) : f.unitLiteral? = cs.findSome? f.trail.unitLiteral? := by
  rw [unitLiteral?, ← Vector.findSome?_toList, h.toList_clauses, List.findSome?_map]
  congr 1
  funext d
  exact ShrinkingClause.unitLiteral?_replay h.ordered.consistent

/-- The rounds suffice for propagation to come to its end. -/
theorem saturates_propagateFor (h : Follows cs f c) (hck : c ≤ k) {rounds : Nat}
    (hrounds : f.numUnsatisfied ≤ rounds) :
    Trail.Saturates cs f.trail (f.propagateFor k rounds).trail := by
  induction rounds generalizing f c with
  | zero =>
    -- no clause is left to be satisfied, so there is no unit clause
    refine .settled fun d hd => ?_
    have hsat := isSatisfied_of_numUnsatisfied (Nat.le_zero.mp hrounds)
    rw [Trail.unitLiteral?, if_pos (h.isSatisfied_iff.mp hsat d hd)]
  | succ rounds ih =>
    rw [Adjacency.propagateFor]
    split
    · rename_i hu
      exact .falsified (h.isUnsatisfiable_iff.mp hu)
    · rename_i hu
      have hnot : ∀ d ∈ cs, ¬f.trail.Falsifies d := fun d hd hf =>
        hu (h.isUnsatisfiable_iff.mpr ⟨d, hd, hf⟩)
      cases hl : f.unitLiteral? with
      | none =>
        rw [h.unitLiteral?_eq, List.findSome?_eq_none_iff] at hl
        exact .settled hl
      | some l =>
        obtain ⟨d, hd, hld, hopen, hrest⟩ := h.unit_of_unitLiteral? hl
        have hnext := (h.assign hck hopen).of_propagationSteps
          ((f.assign l k).propagationSteps + 1)
        refine .force hnot (h.unitLiteral?_eq ▸ hl) ?_
        rw [← h.trail_assign hck]
        exact ih hnext (Nat.le_refl k)
          (Nat.le_of_lt_succ (Nat.lt_of_lt_of_le (h.numUnsatisfied_assign_lt hl) hrounds))

theorem saturates_unitPropagate (h : Follows cs f c) (hck : c ≤ k) :
    Trail.Saturates cs f.trail (f.unitPropagate k).trail :=
  h.saturates_propagateFor hck (Nat.le_refl _)

/-- Calls at levels that never go down keep a formula that is determined by its literals, and the
literals are those in force. -/
theorem after {ms : Moves n} (h : ms.Rising (Adjacency.ofClauses cs)) :
    Follows cs (ms.after (Adjacency.ofClauses cs)) ms.level ∧
      (ms.after (Adjacency.ofClauses cs)).assigned.entries =
        ms.history (Adjacency.ofClauses cs) := by
  induction h with
  | nil => exact ⟨.ofClauses, rfl⟩
  | @assign ms k l _ hk hl ih =>
    obtain ⟨hf, hE⟩ := ih
    have hopen : Trail.Open (trail (ms.after (Adjacency.ofClauses cs))) l :=
      Trail.open_reverse.mp hl
    exact ⟨hf.assign hk hopen, (hf.entries_assign hk).trans (congrArg _ hE)⟩
  | @propagate ms k _ hk ih =>
    obtain ⟨hf, hE⟩ := ih
    obtain ⟨new, hg, hentries, -⟩ := hf.unitPropagate hk
    have htrail : (Adjacency.unitPropagate (ms.after (Adjacency.ofClauses cs)) k).trail =
        new ++ (ms.after (Adjacency.ofClauses cs)).trail := by
      rw [trail, hentries, Timeline.literals_append_map, trail]
    have hcons : Trail.Consistent (new ++ trail (ms.after (Adjacency.ofClauses cs))) :=
      htrail ▸ hg.ordered.consistent
    refine ⟨hg, hentries.trans ?_⟩
    rw [Moves.history_propagate hcons rfl (congrArg List.reverse htrail), hE]
  | @undo ms k _ ih =>
    obtain ⟨hf, hE⟩ := ih
    exact ⟨hf.backtrack, hf.entries_backtrack.trans (congrArg _ hE)⟩

end Follows

/-- What the formula shows is computed from the clauses and the literals in force. -/
theorem recomputed {ms : Moves n} (h : ms.Rising (Adjacency.ofClauses cs)) :
    let f := ms.after (Adjacency.ofClauses cs)
    let A := (ms.history (Adjacency.ofClauses cs)).literals
    A.Consistent ∧ assignment f = A.reverse ∧
      liveClauses f = (cs.filter fun c => ¬A.Satisfies c ∧ ¬A.Falsifies c).map
        (fun c => c.eraseDups.filter (-· ∉ A)) ∧
      (isSatisfied f = true ↔ ∀ c ∈ cs, A.Satisfies c) ∧
      (isUnsatisfiable f = true ↔ ∃ c ∈ cs, A.Falsifies c) ∧
      ∀ k, ms.level ≤ k → ∃ B, Trail.Saturates cs A B ∧ assignment (unitPropagate f k) = B.reverse := by
  obtain ⟨hf, hE⟩ := Follows.after h
  dsimp only
  rw [← hE]
  refine ⟨hf.ordered.consistent, rfl, hf.liveClauses_eq, hf.isSatisfied_iff, hf.isUnsatisfiable_iff,
    fun k hk => ?_⟩
  exact ⟨_, hf.saturates_unitPropagate hk, rfl⟩

/-- A literal that was assigned and the one it forces are in force, in this order. -/
theorem recomputed_two_literals :
    let cs : List (List (BoundedLiteral 2)) := [[⟨⟨1⟩, by decide⟩, ⟨⟨2⟩, by decide⟩]]
    let ms : Moves 2 := [.propagate 1, .assign ⟨⟨0⟩, by decide⟩ 1]
    ms.Rising (ofClauses cs) ∧
      assignment (ms.after (ofClauses cs)) = [⟨⟨0⟩, by decide⟩, ⟨⟨2⟩, by decide⟩] ∧
      isSatisfied (ms.after (ofClauses cs)) = true := by
  intro cs ms
  have h : ms.Rising (ofClauses cs) := .propagate (.assign .nil (by decide) (by decide)) (by decide)
  obtain ⟨-, hassignment, -, hsatisfied, -, -⟩ := recomputed h
  exact ⟨h, hassignment.trans (by decide +kernel), hsatisfied.mpr (by decide +kernel)⟩

end Adjacency

end Dpll
