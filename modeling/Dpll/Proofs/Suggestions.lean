import Dpll.Proofs.Adjacency.Recomputed
import Dpll.Proofs.Heuristic
import Dpll.Proofs.Watched.Sound

/-! What a heuristic suggests in the middle of a search. An adjacency-list formula never asks whether
a literal it shows is open, a watched one asks of each; both show open literals only
(`Moves.Rising.open_of_mem_liveClauses`), so whatever is suggested can be assigned
(`Heuristic.suggest_after`). -/

namespace Dpll

open Backtrackable

variable {n : Nat} {cs : List (List (BoundedLiteral n))} {ms : Moves n} {r : Representation}

/-- After calls at levels that never go down, no live clause shows a literal of an assigned
variable. -/
theorem Moves.Rising.open_of_mem_liveClauses (h : ms.Rising (Tracked.ofClauses r cs))
    {c : List (BoundedLiteral n)} (hc : c ∈ liveClauses (ms.after (Tracked.ofClauses r cs)))
    {l : BoundedLiteral n} (hl : l ∈ c) :
    Trail.Open (assignment (ms.after (Tracked.ofClauses r cs))) l := by
  cases r with
  | adjacencyList =>
    obtain ⟨hf, -⟩ := Adjacency.Follows.after h.adjacencyList
    simp only [Tracked.ofClauses, after_adjacencyList] at hc ⊢
    exact Trail.open_reverse.mpr (hf.open_of_mem_liveClauses hc hl)
  | watchedLiterals =>
    obtain ⟨hf, -⟩ := Watched.Sound.after h.watchedLiterals
    simp only [Tracked.ofClauses, after_watchedLiterals] at hc ⊢
    exact Trail.open_reverse.mpr (hf.open_of_mem_liveClauses hc hl)

namespace Heuristic

/-- A literal is suggested exactly when a live clause shows one. It stands in a live clause, and its
variable is not assigned. Every request counts as a decision. -/
theorem suggest_after (h : ms.Rising (Tracked.ofClauses r cs)) (η : Heuristic) :
    let f := ms.after (Tracked.ofClauses r cs)
    ((∃ l, (η.suggest f).1 = some l) ↔ ∃ c ∈ liveClauses f, ∃ l, l ∈ c) ∧
      (∀ l, (η.suggest f).1 = some l →
        (∃ c ∈ liveClauses f, l ∈ c) ∧ l.position ∉ (assignment f).map (·.position)) ∧
      (η.suggest f).2.decisions = η.decisions + 1 := by
  refine ⟨η.suggest_eq_some_iff, fun l hl => ?_, rfl⟩
  obtain ⟨c, hc, hlc⟩ := η.mem_of_suggest hl
  exact ⟨⟨c, hc, hlc⟩, Trail.not_mem_positions_iff.mpr (h.open_of_mem_liveClauses hc hlc)⟩

/-- With one of three literals false, one of the other two is suggested, whatever their scores. -/
theorem suggest_after_three_literals :
    let x : BoundedLiteral 3 := ⟨⟨0⟩, by decide⟩
    let y : BoundedLiteral 3 := ⟨⟨2⟩, by decide⟩
    let z : BoundedLiteral 3 := ⟨⟨5⟩, by decide⟩
    let ms : Moves 3 := [.assign x 2, .undo 1, .assign y 2]
    let f := ms.after (Tracked.ofClauses .watchedLiterals [[-x, y, z]])
    let η : Heuristic := .ofName .jeroslowWang 0
    ms.Rising (Tracked.ofClauses .watchedLiterals [[-x, y, z]]) ∧
      (∃ l, (η.suggest f).1 = some l ∧ (l = y ∨ l = z)) ∧ (η.suggest f).2.decisions = 1 := by
  intro x y z ms f η
  have h : ms.Rising (Tracked.ofClauses .watchedLiterals [[-x, y, z]]) :=
    .assign (.undo (.assign .nil (by decide) (by decide))) (by decide) (by decide +kernel)
  obtain ⟨hsome, hlive, hcount⟩ := suggest_after h η
  have hshown : liveClauses f = [[y, z]] := by decide +kernel
  obtain ⟨l, hl⟩ := hsome.mpr ⟨[y, z], by rw [hshown]; exact List.mem_cons_self, y, List.mem_cons_self⟩
  obtain ⟨⟨c, hc, hlc⟩, -⟩ := hlive l hl
  have hc : c = [y, z] := List.mem_singleton.mp (hshown ▸ hc)
  exact ⟨h, ⟨l, hl, by simpa [hc] using hlc⟩, hcount⟩

end Heuristic

end Dpll
