import Dpll.Proofs.Moves
import Dpll.Proofs.Watched.Construction

/-! The books of a watched formula are kept in every session (`Watched.Orderly`): a literal may be
assigned again or contradicted and levels may fall, for no step of watch maintenance looks at more
than the books themselves. Entries are counted (`Watched.booked_after`), so that a clause is in no list
twice and the length of the log is the number of clauses known to be satisfied. -/

namespace Dpll

namespace Watched

variable {n m : Nat} {u : Watch} {l x : BoundedLiteral n} {k : Level}

/-! ### Counting entries -/

section

variable {f : Watched n m} {i : Fin m}

theorem Placed.count_watchers (H : Placed f) : (f.watchers u x).toList.count i =
    if 1 < (f.body i).length ∧ f.watched u i = some x then 1 else 0 := by
  rw [(H.nodup_watchers u x).count]
  exact if_congr (H.mem_watchers u x i) rfl rfl

theorem Logged.count_queue (H : Logged f) :
    f.queue.toList.count i = (f.clauses.get i).queued.toNat := by
  have hi : (f.clauses.get i).queued = true ↔ i ∈ f.queue.toList := H.queued i
  rw [H.nodup_queue.count, if_congr hi.symm rfl rfl]
  cases (f.clauses.get i).queued <;> rfl

theorem Logged.count_satisfied (H : Logged f) :
    (f.satisfied.map (·.1)).count i = (f.clauses.get i).knownSatisfied.toNat := by
  have hi : (f.clauses.get i).knownSatisfied = true ↔ i ∈ f.satisfied.map (·.1) := H.known i
  rw [H.nodup_satisfied.count, if_congr hi.symm rfl rfl]
  cases (f.clauses.get i).knownSatisfied <;> rfl

end

/-! ### Every session -/

variable {cs : List (List (BoundedLiteral n))} {f g : Watched n cs.length} {i : Fin cs.length}
  {q : Queue (Fin cs.length)}

/-- The books of a formula over the clauses `cs` are in order. -/
structure Orderly (cs : List (List (BoundedLiteral n))) (f : Watched n cs.length) : Prop where
  placed : Placed f
  logged : Logged f
  body : ∀ i, f.body i = (cs.get i).eraseDups

namespace Orderly

theorem ofClauses : Orderly cs (ofClauses cs) := ⟨placed_ofClauses, logged_ofClauses, body_ofClauses⟩

theorem retains (H : Orderly cs f) (hr : Retains f g) (hl : Logged g) : Orderly cs g :=
  ⟨hr.placed H.placed, hl, fun i => (hr.body i).trans (H.body i)⟩

theorem markSatisfied (H : Orderly cs f) (hm : Maintains x k f (f.markSatisfied i k)) :
    Orderly cs (f.markSatisfied i k) :=
  ⟨H.placed.markSatisfied, H.logged.markSatisfied, fun j => (hm.body j).trans (H.body j)⟩

theorem assign (H : Orderly cs f) : Orderly cs (f.assign l k) := by
  obtain ⟨hm, hp, hl⟩ := maintains_assign (l := l) (k := k) H.placed H.logged
  exact ⟨hp, hl, fun i => (hm.body i).trans (H.body i)⟩

theorem examine (H : Orderly cs f) : Orderly cs (f.examine i k) := by
  have hE := examine_cases f i k
  generalize f.examine i k = g at hE ⊢
  cases hE with
  | known => exact H
  | satisfied hs =>
    obtain ⟨y, hy⟩ := hs
    exact H.markSatisfied (x := y) (.markSatisfied ⟨y, hy⟩)
  | falsified => exact H.retains retains_report H.logged.report
  | @forced l hl =>
    have H' : Orderly cs { f with propagationSteps := f.propagationSteps + 1 } :=
      H.retains retains_report H.logged.report
    exact H'.assign.markSatisfied (x := l) (maintains_markSatisfied_assign H'.placed H'.logged hl)
  | several => exact H.retains retains_report H.logged.report

theorem dequeue (H : Orderly cs f) (hpop : f.queue.pop? = some (i, q)) :
    Orderly cs (f.dequeue i q) := H.retains retains_dequeue (H.logged.dequeue hpop)

theorem unitPropagate (H : Orderly cs f) : Orderly cs (f.unitPropagate k) := by
  have hstep (g i q) (hg : Orderly cs g) (_ : g.isUnsatisfiable = false)
      (hpop : g.queue.pop? = some (i, q)) : Orderly cs ((g.dequeue i q).examine i k) :=
    (hg.dequeue hpop).examine
  obtain ⟨g, hg, hend⟩ := unitPropagate_induction H hstep
  rcases hend with ⟨-, heq⟩ | ⟨-, -, heq⟩
  · rw [heq]
    exact hg.retains retains_clearQueue hg.logged.clearQueue
  · rw [heq]
    exact hg

theorem backtrack (H : Orderly cs f) : Orderly cs (f.backtrack k) :=
  ⟨H.placed.backtrack, H.logged.backtrack, fun i => body_backtrack.trans (H.body i)⟩

theorem after (ms : Moves n) : Orderly cs (ms.after (Watched.ofClauses cs)) := by
  refine Moves.after_induction .ofClauses ?assign ?propagate ?undo
  case assign => exact fun _ _ _ _ H => H.assign
  case propagate => exact fun _ _ _ H => H.unitPropagate
  case undo => exact fun _ _ _ H => H.backtrack

/-- A clause of two literals stands once in one list of each watch, that of the literal at the
watched position. -/
theorem count_watchers (H : Orderly cs f) (hlen : 1 < (cs.get i).eraseDups.length) (u : Watch) :
    ∃ x, (cs.get i).eraseDups[(f.clauses.get i).position u]? = some x ∧
      ∀ y, (f.watchers u y).toList.count i = if y = x then 1 else 0 := by
  rw [← H.body] at hlen ⊢
  have hx : f.watched u i = some ((f.body i).get ⟨_, H.placed.lt i u hlen⟩) :=
    List.getElem?_eq_getElem _
  refine ⟨_, hx, fun y => ?_⟩
  rw [H.placed.count_watchers, hx]
  refine if_congr ?_ rfl rfl
  rw [and_iff_right hlen, Option.some.injEq, eq_comm]

end Orderly

/-- Whatever was called, a clause of at least two distinct literals stands once in one watch list of
each slot, at two positions of its own; a shorter one stands in none. The queue and the log of
satisfied clauses hold a clause once if it is flagged and else not, so the formula is satisfied when
every clause is flagged. -/
theorem booked_after (cs : List (List (BoundedLiteral n))) (ms : Moves n) :
    let f := ms.after (ofClauses cs)
    (∀ i, let c := f.clauses.get i
      let d := (cs.get i).eraseDups
      c.literals.toList = d ∧
      (1 < d.length → c.firstPosition ≠ c.secondPosition ∧ ∀ u, c.position u < d.length ∧
        ∃ x, d[c.position u]? = some x ∧ ∀ y, (f.watchers u y).toList.count i = if y = x then 1 else 0) ∧
      (d.length ≤ 1 → ∀ u y, i ∉ f.watchers u y) ∧
      f.queue.toList.count i = c.queued.toNat ∧
      (f.satisfied.map (·.1)).count i = c.knownSatisfied.toNat) ∧
    (f.isSatisfied = true ↔ ∀ i, (f.clauses.get i).knownSatisfied = true) := by
  intro f
  have H : Orderly cs f := .after ms
  refine ⟨fun i => ⟨H.body i, fun hlen => ?_, fun hlen u y hmem => ?_, H.logged.count_queue,
    H.logged.count_satisfied⟩, H.logged.isSatisfied_iff⟩
  · have hlen' : 1 < (f.body i).length := H.body i ▸ hlen
    refine ⟨H.placed.ne i .first hlen', fun u => ⟨?_, H.count_watchers hlen u⟩⟩
    exact H.body i ▸ H.placed.lt i u hlen'
  · obtain ⟨hlong, -⟩ := (H.placed.mem_watchers u y i).mp (Array.mem_toList_iff.mpr hmem)
    rw [H.body] at hlong
    exact Nat.not_lt_of_le hlen hlong

end Watched

end Dpll
