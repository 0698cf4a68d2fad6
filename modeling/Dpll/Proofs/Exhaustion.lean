import Dpll.Proofs.Adjacency.Recomputed
import Dpll.Proofs.Watched.Backlog

/-! When propagation leaves no unit clause behind. Over adjacency lists it never does. Over watched
literals it does not as long as every return is careful, and right after a return it looks at nothing,
so then it depends on the trail that was returned to alone (`unitPropagate_exhausts`). -/

namespace Dpll

open Backtrackable

variable {n m : Nat} {cs : List (List (BoundedLiteral n))} {k : Level} {ms : Moves n}

/-- The formula is known to be unsatisfiable, or every clause has a true literal or two open ones. -/
def Exhausted {σ : Type} [Backtrackable σ (BoundedLiteral n)] (cs : List (List (BoundedLiteral n)))
    (f : σ) : Prop :=
  isUnsatisfiable f = true ∨ ∀ d ∈ cs, Trail.Settles (assignment f) d

theorem exhausted_adjacencyList {f : Adjacency n m} :
    Exhausted cs (Tracked.adjacencyList f) ↔
      f.isUnsatisfiable = true ∨ ∀ d ∈ cs, Trail.Settles f.trail d :=
  or_congr_right <| forall₂_congr fun _ _ => Trail.settles_reverse

theorem exhausted_watchedLiterals {f : Watched n m} :
    Exhausted cs (Tracked.watchedLiterals f) ↔
      f.isUnsatisfiable = true ∨ ∀ d ∈ cs, Trail.Settles f.trail d :=
  or_congr_right <| forall₂_congr fun _ _ => Trail.settles_reverse

theorem Moves.Careful.watchedLiterals {f : Watched n m}
    (h : ms.Careful cs (Tracked.watchedLiterals f)) : ms.Careful cs f := by
  induction ms with
  | nil => trivial
  | cons m ms ih =>
    cases m with
    | assign | propagate => exact ih h
    | undo k =>
      refine ⟨ih h.1, ?_⟩
      have hk := h.2
      rw [after_watchedLiterals, history_watchedLiterals] at hk
      exact hk

/-- Propagation leaves no unit clause behind, over watched literals after careful returns or with an
empty clause. Over watched literals a return whose level was not settled is met by the next
propagation with nothing to look at. -/
theorem unitPropagate_exhausts (r : Representation) (h : ms.Rising (Tracked.ofClauses r cs))
    (hk : ms.level ≤ k) :
    let f := unitPropagate (ms.after (Tracked.ofClauses r cs)) k
    ((r = .watchedLiterals → [] ∈ cs ∨ ms.Careful cs (Tracked.ofClauses r cs)) → Exhausted cs f) ∧
      (r = .watchedLiterals → ∀ j p, Exhausted cs (unitPropagate (backtrack f j) p) ↔
        [] ∈ cs ∨ ∀ d ∈ cs,
          ((Moves.history (Tracked.ofClauses r cs) (.propagate k :: ms)).upTo j).Settles d) := by
  cases r with
  | adjacencyList =>
    obtain ⟨hf, -⟩ := Adjacency.Follows.after (Moves.Rising.adjacencyList h)
    simp only [Tracked.ofClauses, Moves.after_adjacencyList]
    obtain ⟨_, -, -, -, -, hend⟩ := hf.unitPropagate hk
    exact ⟨fun _ => exhausted_adjacencyList.mpr hend, nofun⟩
  | watchedLiterals =>
    -- `hf` is about the formula before the propagation, `hE` about the literals after it
    have hrise := Moves.Rising.watchedLiterals h
    obtain ⟨hf, -⟩ := Watched.Sound.after hrise
    obtain ⟨-, hE⟩ := Watched.Sound.after (.propagate hrise hk)
    simp only [Tracked.ofClauses, Moves.after_watchedLiterals, Moves.history_watchedLiterals]
    refine ⟨fun hcareful => exhausted_watchedLiterals.mpr ?_, fun _ j p => ?_⟩
    · by_cases hcs : [] ∈ cs
      · obtain ⟨hg, -⟩ := hf.unitPropagate hk
        left
        rw [Watched.isUnsatisfiable, hg.empty.mpr hcs, Bool.true_or]
      · have hms := (hcareful trivial).resolve_left hcs
        have B := Watched.Backlog.after hrise hcs hms.watchedLiterals
        exact (B.unitPropagate hf hcs hrise.reach_le_level hk).2
    · rw [← hE]
      exact exhausted_watchedLiterals.trans (Watched.settles_backtrack_iff hf hk j p)

/-- A return to the level of the last propagation is careful. -/
theorem unitPropagate_exhausts_two_literals :
    let x : BoundedLiteral 2 := ⟨⟨0⟩, by decide⟩
    let y : BoundedLiteral 2 := ⟨⟨2⟩, by decide⟩
    Exhausted [[-x, y]] (unitPropagate
      (Moves.after (Tracked.ofClauses .watchedLiterals [[-x, y]]) [.assign x 1, .undo 0, .assign y 1])
      1) := by
  intro x y
  have h : Moves.Rising (Tracked.ofClauses .watchedLiterals [[-x, y]])
      [.assign x 1, .undo 0, .assign y 1] :=
    .assign (.undo (.assign .nil (by decide) (by decide))) (by decide) (by decide +kernel)
  obtain ⟨hexhausted, -⟩ := unitPropagate_exhausts (k := 1) .watchedLiterals h (by decide)
  exact hexhausted fun _ => .inr ⟨trivial, .inl ⟨by decide +kernel, by decide⟩⟩

/-- A unit clause whose literal was forced at level one is left behind after a return to level zero. -/
theorem unitPropagate_leaves_unit :
    let x : BoundedLiteral 1 := ⟨⟨0⟩, by decide⟩
    let ms : Moves 1 := [.propagate 0, .undo 0, .propagate 1]
    ms.Rising (Tracked.ofClauses .watchedLiterals [[x]]) ∧
      ¬Exhausted [[x]] (ms.after (Tracked.ofClauses .watchedLiterals [[x]])) := by
  intro x ms
  refine ⟨.propagate (.undo (.propagate .nil (by decide))) (by decide), fun hexhausted => ?_⟩
  have hsound : Watched.Sound [[x]] [] 0 (Watched.ofClauses [[x]]) := .ofClauses
  obtain ⟨-, new, htime⟩ := hsound.unitPropagate (Nat.zero_le 1)
  rcases (Watched.settles_backtrack_iff hsound (Nat.zero_le 1) 0 0).mp
    (exhausted_watchedLiterals.mp hexhausted) with hnil | hsettled
  · simp at hnil
  · rw [htime, Watched.timeline_ofClauses, List.append_nil] at hsettled
    have hempty : Timeline.upTo (new.map ((1 : Level), ·)) 0 = [] := by
      simp [Timeline.upTo, Timeline.literals]
    rw [hempty] at hsettled
    obtain ⟨l, -, hl⟩ := (hsettled [x] (by simp)).satisfies (by simp)
    cases hl

end Dpll
