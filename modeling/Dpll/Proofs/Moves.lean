import Dpll.Proofs.Trail
import Dpll.Representation

/-! Sequences of calls on a formula under search. A sequence rises (`Moves.Rising`) as long as no call
is made below the current level and only open literals are assigned. `Moves.history` keeps account of
the literals that are in force and of the levels at which they were fixed, `Moves.decisions` of those
among them that were assigned from outside. -/

namespace Dpll

open Backtrackable

variable {n m : Nat}

/-- A call on a formula under search. -/
inductive Move (n : Nat) where
  | assign (l : BoundedLiteral n) (k : Level)
  | propagate (k : Level)
  | undo (k : Level)

/-- The call touches nothing at level `L` or below, where the literals of `A` are fixed. -/
def Move.Above (L : Level) (A : Trail n) : Move n → Prop
  | .assign l k => L < k ∧ A.Open l
  | .propagate k => L < k
  | .undo k => L ≤ k

/-- Calls on a formula, newest first. -/
abbrev Moves (n : Nat) := List (Move n)

namespace Moves

/-- The current level: that of the last call, or the one returned to. -/
def level : Moves n → Level
  | [] => 0
  | .assign _ k :: _ => k
  | .propagate k :: _ => k
  | .undo k :: ms => min (level ms) k

/-- The literals in force that were assigned, with their levels. -/
def decisions : Moves n → Timeline n
  | [] => []
  | .assign l k :: ms => (k, l) :: decisions ms
  | .propagate _ :: ms => decisions ms
  | .undo k :: ms => (decisions ms).filter (·.1 ≤ k)

section

variable {σ : Type} [Backtrackable σ (BoundedLiteral n)]

/-- The formula after the calls. -/
def after (f : σ) : Moves n → σ
  | [] => f
  | .assign l k :: ms => Backtrackable.assign (after f ms) l k
  | .propagate k :: ms => unitPropagate (after f ms) k
  | .undo k :: ms => backtrack (after f ms) k

/-- What holds at the start and is kept by each of the calls holds after them. -/
theorem after_induction {P : σ → Prop} {f : σ} {ms : Moves n} (start : P f)
    (assign : ∀ g l k, .assign l k ∈ ms → P g → P (Backtrackable.assign g l k))
    (propagate : ∀ g k, .propagate k ∈ ms → P g → P (unitPropagate g k))
    (undo : ∀ g k, .undo k ∈ ms → P g → P (backtrack g k)) : P (ms.after f) := by
  induction ms with
  | nil => exact start
  | cons m ms ih =>
    have hrest : P (after f ms) :=
      ih (fun g l k hm => assign g l k (List.mem_cons_of_mem m hm))
        (fun g k hm => propagate g k (List.mem_cons_of_mem m hm))
        (fun g k hm => undo g k (List.mem_cons_of_mem m hm))
    cases m with
    | assign l k => exact assign _ l k List.mem_cons_self hrest
    | propagate k => exact propagate _ k List.mem_cons_self hrest
    | undo k => exact undo _ k List.mem_cons_self hrest

/-- The literals in force, with the levels of the calls that fixed them. Propagation fixed the
literals that were not there before. -/
def history (f : σ) : Moves n → Timeline n
  | [] => []
  | .assign l k :: ms => (k, l) :: history f ms
  | .propagate k :: ms =>
    ((assignment (unitPropagate (after f ms) k)).filter
      (· ∉ assignment (after f ms))).reverse.map (k, ·) ++ history f ms
  | .undo k :: ms => (history f ms).filter (·.1 ≤ k)

/-- No call is made below the current level, and only open literals are assigned. -/
inductive Rising (f : σ) : Moves n → Prop
  | nil : Rising f []
  | assign : Rising f ms → ms.level ≤ k → Trail.Open (assignment (ms.after f)) l →
      Rising f (.assign l k :: ms)
  | propagate : Rising f ms → ms.level ≤ k → Rising f (.propagate k :: ms)
  | undo : Rising f ms → Rising f (.undo k :: ms)

/-- Propagation puts on top what it has made true. -/
theorem history_propagate {f : σ} {ms : Moves n} {k : Level} {A new : Trail n}
    (hcons : Trail.Consistent (new ++ A)) (hbefore : assignment (ms.after f) = A.reverse)
    (hafter : assignment (unitPropagate (ms.after f) k) = (new ++ A).reverse) :
    history f (.propagate k :: ms) = new.map (k, ·) ++ history f ms := by
  have hnodup : (new ++ A).Nodup := .of_map _ hcons
  have hdisjoint := (List.nodup_append.mp hnodup).2.2
  have hnew : new.reverse.filter (· ∉ A.reverse) = new.reverse := by
    rw [List.filter_eq_self]
    intro x hx
    simpa using fun hxA => hdisjoint x (List.mem_reverse.mp hx) x hxA rfl
  rw [history, hbefore, hafter, List.reverse_append, List.filter_append,
    List.filter_eq_nil_iff.mpr (by simp), List.nil_append, hnew, List.reverse_reverse]

end

/-! ### Either representation -/

section

variable {f : Adjacency n m} {g : Watched n m} {ms : Moves n}

theorem after_adjacencyList :
    ms.after (Tracked.adjacencyList f) = .adjacencyList (ms.after f) := by
  fun_induction after f ms with
  | case1 => rfl
  | case2 _ _ _ ih | case3 _ _ ih | case4 _ _ ih =>
    rw [after, ih]
    rfl

theorem after_watchedLiterals :
    ms.after (Tracked.watchedLiterals g) = .watchedLiterals (ms.after g) := by
  fun_induction after g ms with
  | case1 => rfl
  | case2 _ _ _ ih | case3 _ _ ih | case4 _ _ ih =>
    rw [after, ih]
    rfl

theorem history_watchedLiterals :
    history (Tracked.watchedLiterals g) ms = history g ms := by
  fun_induction history g ms with
  | case1 => rfl
  | case2 _ _ _ ih | case4 _ _ ih => rw [history, ih]
  | case3 _ _ ih =>
    rw [history, ih, after_watchedLiterals]
    rfl

theorem Rising.adjacencyList (h : ms.Rising (Tracked.adjacencyList f)) : ms.Rising f := by
  induction h with
  | nil => exact .nil
  | assign _ hk hl ih =>
    rw [after_adjacencyList] at hl
    exact .assign ih hk hl
  | propagate _ hk ih => exact .propagate ih hk
  | undo _ ih => exact .undo ih

theorem Rising.watchedLiterals (h : ms.Rising (Tracked.watchedLiterals g)) : ms.Rising g := by
  induction h with
  | nil => exact .nil
  | assign _ hk hl ih =>
    rw [after_watchedLiterals] at hl
    exact .assign ih hk hl
  | propagate _ hk ih => exact .propagate ih hk
  | undo _ ih => exact .undo ih

end

end Moves

end Dpll
