import Dpll.Proofs.Adjacency.Laws
import Dpll.Proofs.Cnf
import Dpll.Proofs.Search.Run
import Dpll.Proofs.Watched.Laws

/-! The solver is correct. In either representation a fresh formula keeps the laws of a run of
decisions, so the search ends with the right answer, whatever the heuristic suggests
(`Cnf.search_decides`). -/

namespace Dpll

open Backtrackable

variable {n m : Nat} {cs : List (List (BoundedLiteral n))}

/-- The laws of a formula in either representation. -/
def Laws.tracked (L : Laws (Adjacency n m) cs) (M : Laws (Watched n m) cs) :
    Laws (Tracked n m) cs where
  Pending B As
    | .adjacencyList f => L.Pending B As f
    | .watchedLiterals f => M.Pending B As f
  Settled A As
    | .adjacencyList f => L.Settled A As f
    | .watchedLiterals f => M.Settled A As f
  Failed As
    | .adjacencyList f => L.Failed As f
    | .watchedLiterals f => M.Failed As f
  Stuck := L.Stuck ∨ M.Stuck
  assume := @fun
    | _, .adjacencyList _, _, H, hl => L.assume H hl
    | _, .watchedLiterals _, _, H, hl => M.assume H hl
  decide := @fun
    | _, _, .adjacencyList _, _, H, hl => L.decide H hl
    | _, _, .watchedLiterals _, _, H, hl => M.decide H hl
  propagate := @fun
    | _, _, .adjacencyList _, H => L.propagate H
    | _, _, .watchedLiterals _, H => M.propagate H
  rest := @fun
    | _, _, .adjacencyList _, H => L.rest H
    | _, _, .watchedLiterals _, H => M.rest H
  stay := @fun
    | _, _, .adjacencyList _, H => L.stay H
    | _, _, .watchedLiterals _, H => M.stay H
  undo_settled := @fun
    | _, _, _, _, .adjacencyList _, H => L.undo_settled H
    | _, _, _, _, .watchedLiterals _, H => M.undo_settled H
  undo_failed := @fun
    | _, _, _, .adjacencyList _, H => L.undo_failed H
    | _, _, _, .watchedLiterals _, H => M.undo_failed H
  consistent := @fun
    | _, _, .adjacencyList _, H => L.consistent H
    | _, _, .watchedLiterals _, H => M.consistent H
  assignment_eq := @fun
    | _, _, .adjacencyList _, H => L.assignment_eq H
    | _, _, .watchedLiterals _, H => M.assignment_eq H
  not_unsatisfiable := @fun
    | _, _, .adjacencyList _, H => L.not_unsatisfiable H
    | _, _, .watchedLiterals _, H => M.not_unsatisfiable H
  open_of_live := @fun
    | _, _, .adjacencyList _, _, _, H, hc, hl => L.open_of_live H hc hl
    | _, _, .watchedLiterals _, _, _, H, hc, hl => M.open_of_live H hc hl
  satisfies := @fun
    | _, _, .adjacencyList _, H, hs => L.satisfies H hs
    | _, _, .watchedLiterals _, H, hs => M.satisfies H hs
  leaf := @fun
    | _, _, .adjacencyList _, H, hs, hlive => (L.leaf H hs hlive).imp_left .inl
    | _, _, .watchedLiterals _, H, hs, hlive => (M.leaf H hs hlive).imp_left .inr
  unsatisfiable := @fun
    | _, .adjacencyList _, H => L.unsatisfiable H
    | _, .watchedLiterals _, H => M.unsatisfiable H
  not_satisfied := @fun
    | _, .adjacencyList _, H => L.not_satisfied H
    | _, .watchedLiterals _, H => M.not_satisfied H

namespace Tracked

/-- The laws of a formula with all its clauses. -/
def freshLaws (r : Representation) (cs : List (List (BoundedLiteral n))) :
    Laws (Tracked n cs.length) cs :=
  match r with
  | .adjacencyList => .tracked (Adjacency.laws cs) (.never _ cs)
  | .watchedLiterals => .tracked (.never _ cs) (Watched.freshLaws cs)

theorem pending_ofClauses (r : Representation) (cs : List (List (BoundedLiteral n))) :
    (freshLaws r cs).Pending [] [] (ofClauses r cs) := by
  cases r with
  | adjacencyList => exact Adjacency.stands_ofClauses
  | watchedLiterals => exact Watched.pending_ofClauses cs

/-- Assumptions at level zero are still to be propagated. -/
theorem pending_assumed (r : Representation) {as : List (BoundedLiteral n)}
    (has : Trail.Consistent as) : (freshLaws r cs).Pending as.reverse []
      (as.foldl (fun g l => assign g l 0) (ofClauses r cs)) := by
  have hrev : Trail.Consistent (as.reverse ++ []) := by
    rw [List.append_nil]
    exact Trail.consistent_reverse.mpr has
  have hpending := (freshLaws r cs).assume_all (pending_ofClauses r cs) hrev
  rwa [List.append_nil] at hpending

theorem not_stuck_freshLaws (r : Representation) : ¬(freshLaws r cs).Stuck := by
  cases r with
  | adjacencyList => exact or_self_iff.mp
  | watchedLiterals => exact fun h => h.elim id fun h => h trivial

theorem settles_freshLaws (r : Representation) : (freshLaws r cs).Settles := by
  intro A As f H
  cases r <;> cases f
  · exact Adjacency.settles_laws cs H
  · exact H.elim
  · exact H.elim
  · exact Watched.settles_freshLaws cs H

/-- A search that keeps the laws ends in either representation. -/
theorem search {L : Laws (Tracked n m) cs} {T : Trail n} {f : Tracked n m} (hf : L.Pending T [] f)
    (h : Heuristic) (j : Journal (Call (BoundedLiteral n))) :
    ∃ t, f.search? h j = some t ∧ L.Verdict T j t := by
  have hbound : n ≤ f.decisionBound := by
    cases f with
    | adjacencyList f | watchedLiterals f => exact Nat.le_add_right n _
  exact L.search hf h j hbound

end Tracked

/-- What a search of the formula under assumptions is to end with. -/
structure Cnf.Decides (f : Cnf) (as : List (BoundedLiteral f.numVars))
    (t : Finished (Tracked f.numVars m) Heuristic (BoundedLiteral f.numVars)) : Prop where
  answer_iff : t.answer = true ↔ ∃ v, f.Models v ∧ ∀ l ∈ as, l.Holds v
  isSatisfied : isSatisfied t.formula = t.answer
  isUnsatisfiable : isUnsatisfiable t.formula = !t.answer
  consistent : t.answer = true → Trail.Consistent (assignment t.formula)
  assumed : t.answer = true → as ⊆ assignment t.formula
  verified : t.answer = true → ∃ a,
    Assignment.ofLiterals? f.numVars ((assignment t.formula).map (·.toLiteral)) = some a ∧
      f.verify a = true
  models : t.answer = true → ∀ v, (∀ l ∈ assignment t.formula, l.Holds v) → f.Models v

namespace Cnf

variable {f : Cnf}

theorem Decides.of_verdict {cs : List (List (BoundedLiteral f.numVars))}
    (hcs : f.bounded? = some cs) {as : List (BoundedLiteral f.numVars)}
    {T : Trail f.numVars} (hT : ∀ l, l ∈ T ↔ l ∈ as) {j : Journal (Call (BoundedLiteral f.numVars))}
    {t : Finished (Tracked f.numVars cs.length) Heuristic (BoundedLiteral f.numVars)}
    {r : Representation} (H : (Tracked.freshLaws r cs).Verdict T j t) : f.Decides as t := by
  have haccepted (h : t.answer = true) : Trail.Consistent (assignment t.formula) ∧
      T ⊆ assignment t.formula ∧ (∀ c ∈ cs, Trail.Satisfies (assignment t.formula) c) ∧
      Backtrackable.isSatisfied t.formula = true ∧
      Backtrackable.isUnsatisfiable t.formula = false := by
    obtain ⟨A, As, hset, -, hTA, hsat, hend⟩ := H.accepted h
    have hsub : A ⊆ A.reverse := fun l => List.mem_reverse.mpr
    rw [Laws.assignment_eq _ hset]
    exact ⟨Trail.consistent_reverse.mpr (Laws.consistent _ hset), List.Subset.trans hTA hsub,
      fun c hc => (hsat c hc).mono hsub, hend.resolve_right (Tracked.not_stuck_freshLaws r),
      Laws.not_unsatisfiable _ hset⟩
  have hstatus : Backtrackable.isSatisfied t.formula = t.answer ∧
      Backtrackable.isUnsatisfiable t.formula = !t.answer := by
    cases h : t.answer with
    | true =>
      obtain ⟨-, -, -, hs, hu⟩ := haccepted h
      exact ⟨hs, hu⟩
    | false =>
      obtain ⟨As, hfail, -, -⟩ := H.rejected h
      exact ⟨Laws.not_satisfied _ hfail, Laws.unsatisfiable _ hfail⟩
  refine ⟨?_, hstatus.1, hstatus.2, fun h => (haccepted h).1, fun h => ?_, fun h => ?_, fun h v hv => ?_⟩
  · rw [H.answer_iff]
    simp only [models_iff hcs, hT]
  · exact fun l hl => (haccepted h).2.1 ((hT l).mpr hl)
  · obtain ⟨hconsistent, -, hsat, -⟩ := haccepted h
    obtain ⟨a, ha, hvalue⟩ := Assignment.exists_ofLiterals? hconsistent
    exact ⟨a, ha, verify_of_satisfies hcs hsat hvalue⟩
  · rw [models_iff hcs]
    intro c hc
    obtain ⟨l, hl, htrue⟩ := (haccepted h).2.2.1 c hc
    exact ⟨l, hl, hv l htrue⟩

/-- A search of a fresh formula under assumptions ends with the right answer, and so does solving the
formula; no node is ever left without a literal to decide. -/
theorem search_decides (f : Cnf) (hf : f.InRange) (r : Representation) (h : Heuristic) :
    ∃ cs, f.bounded? = some cs ∧
      (∀ as : List (BoundedLiteral f.numVars), Trail.Consistent as →
        ∀ j : Journal (Call (BoundedLiteral f.numVars)), ∃ t,
          (as.foldl (fun g l => assign g l 0) (Tracked.ofClauses r cs)).search? h j = some t ∧
          f.Decides as t ∧ (Call.suggest none ∈ t.calls → Call.suggest none ∈ j.entries)) ∧
      ∀ recorded, ∃ s, f.solve? r h recorded = some s ∧ f.Decides [] s.finished ∧
        Call.suggest none ∉ s.finished.calls := by
  obtain ⟨cs, hcs⟩ := exists_bounded? hf
  have hsearch (as : List (BoundedLiteral f.numVars)) (has : Trail.Consistent as)
      (j : Journal (Call (BoundedLiteral f.numVars))) : ∃ t,
      (as.foldl (fun g l => assign g l 0) (Tracked.ofClauses r cs)).search? h j = some t ∧
        f.Decides as t ∧ (Call.suggest none ∈ t.calls → Call.suggest none ∈ j.entries) := by
    obtain ⟨t, ht, hverdict⟩ := Tracked.search (Tracked.pending_assumed r has) h j
    refine ⟨t, ht, .of_verdict hcs (by simp) hverdict, fun hmem => ?_⟩
    exact (hverdict.noted hmem).resolve_right (Tracked.not_stuck_freshLaws r)
  refine ⟨cs, hcs, hsearch, fun recorded => ?_⟩
  obtain ⟨t, ht, hdecides, hnoted⟩ :=
    hsearch [] List.nodup_nil (if recorded then .blank else .closed)
  refine ⟨⟨cs.length, Tracked.ofClauses r cs, t⟩, ?_, hdecides, fun hmem => ?_⟩
  · simp only [solve?, hcs, Option.bind_eq_bind, Option.bind_some]
    rw [show (Tracked.ofClauses r cs).search? h _ = some t from ht]
    rfl
  · have hentries := hnoted hmem
    cases recorded <;> simp [Journal.entries, Journal.blank, Journal.closed] at hentries

/-- The second of two variables assumed to be false. -/
theorem search_decides_two_clauses : (Cnf.ofNumbers [[1, 2], [-1, 2]]).InRange ∧
    Trail.Consistent (n := (Cnf.ofNumbers [[1, 2], [-1, 2]]).numVars) [⟨⟨3⟩, by decide⟩] ∧
    ∃ cs, (Cnf.ofNumbers [[1, 2], [-1, 2]]).bounded? = some cs ∧ ∃ t,
      Tracked.search? (assign (Tracked.ofClauses .watchedLiterals cs) ⟨⟨3⟩, by decide⟩ 0)
        (.ofName .takeFirst 0) .blank = some t ∧
      (Cnf.ofNumbers [[1, 2], [-1, 2]]).Decides [⟨⟨3⟩, by decide⟩] t ∧
      Call.suggest none ∉ t.calls := by
  have hf : (Cnf.ofNumbers [[1, 2], [-1, 2]]).InRange := by
    unfold InRange
    decide
  refine ⟨hf, List.nodup_singleton _, ?_⟩
  obtain ⟨cs, hcs, hsearch, -⟩ := search_decides _ hf .watchedLiterals (.ofName .takeFirst 0)
  obtain ⟨t, ht, hdecides, hnoted⟩ := hsearch [⟨⟨3⟩, by decide⟩] (List.nodup_singleton _) .blank
  exact ⟨cs, hcs, t, ht, hdecides, fun h => by simpa [Journal.entries, Journal.blank] using hnoted h⟩

end Cnf

end Dpll
