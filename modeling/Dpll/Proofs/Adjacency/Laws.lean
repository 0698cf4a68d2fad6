import Dpll.Proofs.Adjacency.Propagation
import Dpll.Proofs.Search.Laws

/-! The adjacency-list formula keeps the laws of a run of decisions: its timeline names the trail of
every level below, and a level is left only once all clauses are settled on it. -/

namespace Dpll

namespace Adjacency

variable {n : Nat} {cs : List (List (BoundedLiteral n))} {f : Adjacency n cs.length}
  {A B : Trail n} {As Bs : List (Trail n)} {l : BoundedLiteral n}

/-- The formula has the trail `A` on top of the trails `As`, which settle every clause. -/
structure Stands (cs : List (List (BoundedLiteral n))) (A : Trail n) (As : List (Trail n))
    (f : Adjacency n cs.length) : Prop where
  follows : Follows cs f As.length
  trail : f.trail = A
  layers : Timeline.layers f.assigned.entries As.length = As
  settled : ∀ B ∈ As, ∀ d ∈ cs, B.Settles d

namespace Stands

theorem consistent (H : Stands cs A As f) : A.Consistent := H.trail ▸ H.follows.ordered.consistent

theorem not_unsatisfiable (H : Stands cs A As f) (hA : ∀ d ∈ cs, A.Settles d) :
    f.isUnsatisfiable = false := by
  rw [Bool.eq_false_iff, ne_eq, H.follows.isUnsatisfiable_iff, H.trail]
  rintro ⟨d, hd, hf⟩
  exact H.consistent.not_settles hf (hA d hd)

theorem assume (H : Stands cs A [] f) (hl : A.Open l) : Stands cs (l :: A) [] (f.assign l 0) where
  follows := H.follows.assign (Nat.le_refl 0) (H.trail ▸ hl)
  trail := by
    rw [Adjacency.trail, H.follows.entries_assign (Nat.le_refl 0), Timeline.literals_cons,
      ← Adjacency.trail, H.trail]
  layers := rfl
  settled := by simp

theorem decide (H : Stands cs A As f) (hA : ∀ d ∈ cs, A.Settles d) (hl : A.Open l) :
    Stands cs (l :: A) (A :: As) (f.assign l (As.length + 1)) where
  follows := H.follows.assign (Nat.le_succ _) (H.trail ▸ hl)
  trail := by
    rw [Adjacency.trail, H.follows.entries_assign (Nat.le_succ _), Timeline.literals_cons,
      ← Adjacency.trail, H.trail]
  layers := by
    rw [H.follows.entries_assign (Nat.le_succ _), List.length_cons,
      Timeline.layers_cons (Nat.le_refl _), Timeline.layers, H.layers,
      H.follows.ordered.literals_eq_upTo (Nat.le_refl _), ← Adjacency.trail, H.trail]
  settled := by
    intro B hB
    rcases List.mem_cons.mp hB with rfl | hB
    · exact hA
    · exact H.settled B hB

theorem propagate (H : Stands cs B As f) : ∃ new,
    Stands cs (new ++ B) As (f.unitPropagate As.length) ∧
    (f.unitPropagate As.length).propagationSteps = f.propagationSteps + new.length ∧
    (∀ l ∈ new, UnitClosure cs (· ∈ B) l) ∧
    ((f.unitPropagate As.length).isUnsatisfiable = true ∨ ∀ d ∈ cs, Trail.Settles (new ++ B) d) := by
  obtain ⟨new, hg, hentries, hsteps, hclosed, hend⟩ := H.follows.unitPropagate (Nat.le_refl _)
  have htrail : (f.unitPropagate As.length).trail = new ++ B := by
    rw [Adjacency.trail, hentries, Timeline.literals_append_map, ← Adjacency.trail, H.trail]
  have hlayers : Timeline.layers (f.unitPropagate As.length).assigned.entries As.length = As := by
    rw [hentries, Timeline.layers_append_map (Nat.le_refl _), H.layers]
  exact ⟨new, ⟨hg, htrail, hlayers, H.settled⟩, hsteps, H.trail ▸ hclosed, htrail ▸ hend⟩

theorem backtrack (H : Stands cs A (Bs ++ B :: As) f) :
    Stands cs B As (f.backtrack As.length) ∧ ∀ d ∈ cs, B.Settles d := by
  obtain ⟨hlt, hB, hAs⟩ := Timeline.layers_eq_append H.layers
  have hentries := H.follows.entries_backtrack (k := As.length)
  have hfollows := H.follows.backtrack (k := As.length)
  rw [Nat.min_eq_right (Nat.le_of_lt hlt)] at hfollows
  refine ⟨⟨hfollows, ?_, ?_, fun C hC => H.settled C (by simp [hC])⟩, H.settled B (by simp)⟩
  · rw [Adjacency.trail, hentries, hB, Timeline.upTo]
  · rw [hentries, Timeline.layers_filter (Nat.le_succ _), ← hAs]

theorem stay (H : Stands cs A As f) : Stands cs A As (f.backtrack As.length) := by
  have hentries := H.follows.entries_backtrack (k := As.length)
  rw [H.follows.ordered.filter_eq_self (Nat.le_refl _)] at hentries
  have hfollows := H.follows.backtrack (k := As.length)
  rw [Nat.min_self] at hfollows
  refine ⟨hfollows, ?_, by rw [hentries, H.layers], H.settled⟩
  rw [Adjacency.trail, hentries, ← Adjacency.trail, H.trail]

end Stands

theorem stands_ofClauses : Stands cs [] [] (ofClauses cs) := ⟨.ofClauses, rfl, rfl, by simp⟩

/-- The laws of the adjacency-list formula. -/
def laws (cs : List (List (BoundedLiteral n))) : Laws (Adjacency n cs.length) cs where
  Pending := Stands cs
  Settled A As f := Stands cs A As f ∧ ∀ d ∈ cs, A.Settles d
  Failed As f := (∃ A, Stands cs A As f) ∧ f.isUnsatisfiable = true
  Stuck := False
  assume H hl := H.assume hl
  decide H hl := H.1.decide H.2 hl
  propagate := by
    intro B As f H
    obtain ⟨new, hg, hsteps, hclosed, hend⟩ := H.propagate
    by_cases hA : ∀ d ∈ cs, Trail.Settles (new ++ B) d
    · exact .inl ⟨new, ⟨hg, hA⟩, hsteps, hclosed⟩
    · have hu := hend.resolve_right hA
      obtain ⟨d, hd, hf⟩ := hg.follows.isUnsatisfiable_iff.mp hu
      refine .inr ⟨⟨⟨_, hg⟩, hu⟩, d, hd, fun l hl => ?_⟩
      exact Forces.closure ⟨new, rfl, hclosed⟩ (-l) (hg.trail ▸ hf l hl)
  rest H := H.1
  stay H := ⟨H.1.stay, H.2⟩
  undo_settled H := H.1.backtrack
  undo_failed := by
    rintro B Bs As f ⟨⟨A, H⟩, -⟩
    exact H.backtrack
  consistent H := H.1.consistent
  assignment_eq H := by
    rw [← H.1.trail]
    rfl
  not_unsatisfiable H := H.1.not_unsatisfiable H.2
  open_of_live H hc hl := H.1.trail ▸ H.1.follows.open_of_mem_liveClauses hc hl
  satisfies H hs := H.1.trail ▸ H.1.follows.isSatisfied_iff.mp hs
  leaf := by
    rintro A As f ⟨H, hA⟩ hs hlive
    obtain ⟨d, hd, hne⟩ := H.follows.exists_mem_liveClauses hs (H.not_unsatisfiable hA)
    exact absurd (hlive d hd) hne
  unsatisfiable H := H.2
  not_satisfied := by
    rintro As f ⟨⟨A, H⟩, hu⟩
    rw [Bool.eq_false_iff]
    intro hs
    obtain ⟨d, hd, hf⟩ := H.follows.isUnsatisfiable_iff.mp hu
    exact H.follows.ordered.consistent.not_satisfies hf (H.follows.isSatisfied_iff.mp hs d hd)

theorem settles_laws (cs : List (List (BoundedLiteral n))) : (laws cs).Settles := fun H => H.2

end Adjacency

end Dpll
