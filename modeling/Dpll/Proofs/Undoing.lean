import Dpll.Proofs.Adjacency.Recomputed
import Dpll.Proofs.Adjacency.Undoing
import Dpll.Proofs.Watched.Sound
import Dpll.Proofs.Watched.Undoing

/-! Undoing is the inverse of whatever was done above its level: the two representations show the
same formula again, whether the calls in between rose in level, fixed a variable once or came to an
end of any kind (`backtrack_after`). -/

namespace Dpll

open Backtrackable

variable {n : Nat} {cs : List (List (BoundedLiteral n))} {L : Level} {ms ms' : Moves n}

theorem Adjacency.Above.shows {m : Nat} {f g : Adjacency n m} (H : Above L f g) :
    (g.backtrack L).assignment = f.assignment ∧ (g.backtrack L).liveClauses = f.liveClauses ∧
      (g.backtrack L).isSatisfied = f.isSatisfied ∧
      (g.backtrack L).isUnsatisfiable = f.isUnsatisfiable := by
  obtain ⟨hclauses, hassigned, hunsat⟩ := H.restored
  have heq : (g.backtrack L).clauses = f.clauses := Vector.ext fun i hi => hclauses ⟨i, hi⟩
  refine ⟨?_, ?_, ?_, ?_⟩
  · rw [assignment, hassigned, assignment]
  · rw [liveClauses, heq, liveClauses]
  · rw [isSatisfied, heq, isSatisfied]
  · rw [isUnsatisfiable, hunsat, isUnsatisfiable]

/-- After calls above a level that touch none of the variables fixed up to it, undoing to the level
shows the formula as it was. A conflict that propagation over watched literals has met is not
remembered, so there must be none before. -/
theorem backtrack_after (r : Representation) (h : ms.Rising (Tracked.ofClauses r cs))
    (hL : ms.level ≤ L)
    (hconflict : r = .watchedLiterals →
      isUnsatisfiable (ms.after (Tracked.ofClauses r cs)) = true → [] ∈ cs)
    (h' : ∀ m ∈ ms', m.Above L (assignment (ms.after (Tracked.ofClauses r cs)))) :
    let f := ms.after (Tracked.ofClauses r cs)
    let g := backtrack (ms'.after f) L
    assignment g = assignment f ∧ liveClauses g = liveClauses f ∧ isSatisfied g = isSatisfied f ∧
      isUnsatisfiable g = isUnsatisfiable f := by
  cases r with
  | adjacencyList =>
    obtain ⟨hf, -⟩ := Adjacency.Follows.after (Moves.Rising.adjacencyList h)
    simp only [Tracked.ofClauses, Moves.after_adjacencyList] at h' ⊢
    exact ((Adjacency.Above.refl hf hL).after h').shows
  | watchedLiterals =>
    obtain ⟨hf, -⟩ := Watched.Sound.after (Moves.Rising.watchedLiterals h)
    replace hconflict := hconflict rfl
    simp only [Tracked.ofClauses, Moves.after_watchedLiterals] at h' hconflict ⊢
    generalize ms.after (Watched.ofClauses cs) = f at hf h' hconflict ⊢
    have H := (Watched.Above.refl (L := L) hf.placed hf.logged hf.timely).after hf.timely hL h'
    obtain ⟨hassignment, hlive, hsat, hunsat⟩ := H.shows hf.logged hf.timely hL
    refine ⟨hassignment, hlive, hsat, hunsat.trans ?_⟩
    change f.hasEmptyClause = f.isUnsatisfiable
    rw [Bool.eq_iff_iff]
    constructor
    · intro he
      rw [Watched.isUnsatisfiable, he, Bool.true_or]
    · intro hu
      exact hf.empty.mpr (hconflict hu)

/-- A variable is fixed twice above the level, in falling order of levels. -/
theorem backtrack_after_two_literals :
    let x : BoundedLiteral 2 := ⟨⟨0⟩, by decide⟩
    let y : BoundedLiteral 2 := ⟨⟨2⟩, by decide⟩
    let f := Moves.after (Tracked.ofClauses .watchedLiterals [[-x, y]]) [.assign x 1]
    let g := Moves.after f [.propagate 2, .assign (-y) 3, .undo 4, .assign y 5]
    assignment (backtrack g 1) = [x] ∧ isSatisfied (backtrack g 1) = false := by
  intro x y f g
  have h : Moves.Rising (Tracked.ofClauses .watchedLiterals [[-x, y]]) [.assign x 1] :=
    .assign .nil (by decide) (by decide)
  have h' : ∀ m ∈ [.propagate 2, .assign (-y) 3, .undo 4, .assign y 5],
      Move.Above 1 (assignment f) m := by
    have hopen : Trail.Open (assignment f) y ∧ Trail.Open (assignment f) (-y) := by decide +kernel
    simp [Move.Above, hopen]
  obtain ⟨hassignment, -, hsatisfied, -⟩ := backtrack_after (L := 1) .watchedLiterals h (by decide)
    (fun _ => by decide +kernel) h'
  exact ⟨hassignment.trans (by decide +kernel), hsatisfied.trans (by decide +kernel)⟩

end Dpll
