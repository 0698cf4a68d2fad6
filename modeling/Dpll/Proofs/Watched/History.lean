import Dpll.Proofs.Watched.Visits

/-! The history of a watched formula. Its true literals with their levels make a timeline, and the log
of satisfied clauses runs beside it: as long as levels never go down (`Watched.Timely`), undoing to a
level keeps the part of both up to that level, and the watches and the queue stay. -/

namespace Dpll

namespace Watched

private theorem dropWhile_congr {α : Type u} {as : List α} {p q : α → Bool}
    (h : ∀ a ∈ as, p a = q a) : as.dropWhile p = as.dropWhile q := by
  induction as with
  | nil => rfl
  | cons a as ih =>
    rw [List.dropWhile_cons, List.dropWhile_cons, h a List.mem_cons_self,
      ih fun b hb => h b (List.mem_cons_of_mem a hb)]

private theorem takeWhile_congr {α : Type u} {as : List α} {p q : α → Bool}
    (h : ∀ a ∈ as, p a = q a) : as.takeWhile p = as.takeWhile q := by
  induction as with
  | nil => rfl
  | cons a as ih =>
    rw [List.takeWhile_cons, List.takeWhile_cons, h a List.mem_cons_self,
      ih fun b hb => h b (List.mem_cons_of_mem a hb)]

variable {n m : Nat} {f g : Watched n m} {l x : BoundedLiteral n} {i j : Fin m} {c k : Level}

/-- The true literals with their levels, newest first. -/
def timeline (f : Watched n m) : Timeline n := f.trail.map fun l => ((f.levels.get l).getD 0, l)

@[simp]
theorem literals_timeline : f.timeline.literals = f.trail := by
  simp [timeline, Timeline.literals, Function.comp_def]

/-- Levels never went down up to level `c`, and a clause is in the log of satisfied clauses at a
level only if a literal of that level or a lower one satisfies it. -/
structure Timely (f : Watched n m) (c : Level) : Prop where
  isTrue : ∀ l, f.isTrue l = true ↔ l ∈ f.trail
  ordered : f.timeline.Ordered c
  sorted : f.satisfied.Pairwise fun newer older => older.2 ≤ newer.2
  le : ∀ e ∈ f.satisfied, e.2 ≤ c
  sound : ∀ e ∈ f.satisfied, (f.timeline.upTo e.2).Satisfies (f.body e.1)

theorem mem_timeline (htrue : ∀ l, f.isTrue l = true ↔ l ∈ f.trail) :
    (k, l) ∈ f.timeline ↔ f.levels.get l = some k := by
  have hl := htrue l
  rw [isTrue, Option.isSome_iff_exists] at hl
  simp only [timeline, List.mem_map, Prod.mk.injEq]
  constructor
  · rintro ⟨y, hy, hk, rfl⟩
    obtain ⟨s, hs⟩ := hl.mpr hy
    rw [hs] at hk ⊢
    exact congrArg some hk
  · intro hk
    exact ⟨l, hl.mp ⟨k, hk⟩, by simp [hk], rfl⟩

namespace Timely

variable (H : Timely f c)

include H

theorem consistent : Trail.Consistent f.trail := literals_timeline (f := f) ▸ H.ordered.consistent

theorem isOpen_iff : f.isOpen l = true ↔ Trail.Open f.trail l := by
  rw [isOpen, Trail.Open, ← H.isTrue, ← H.isTrue]
  simp

theorem upTo_eq_trail (hck : c ≤ k) : f.timeline.upTo k = f.trail :=
  (H.ordered.literals_eq_upTo hck).trans literals_timeline

theorem mono (hck : c ≤ k) : Timely f k :=
  ⟨H.isTrue, H.ordered.mono hck, H.sorted, fun e he => Nat.le_trans (H.le e he) hck, H.sound⟩

/-- A clause known to be satisfied has a true literal. -/
theorem satisfies_of_known (hl : Logged f) (hi : f.Known i) : Trail.Satisfies f.trail (f.body i) := by
  obtain ⟨e, he, rfl⟩ := List.mem_map.mp ((hl.known i).mp hi)
  exact literals_timeline (f := f) ▸ (H.sound e he).mono Timeline.upTo_subset

end Timely

/-! ### A new literal -/

/-- The formula with one more true literal, before any clause is told. -/
def fix (f : Watched n m) (l : BoundedLiteral n) (k : Level) : Watched n m :=
  { f with trail := l :: f.trail, levels := f.levels.set l (some k) }

theorem timeline_fix (hl : l ∉ f.trail) : (f.fix l k).timeline = (k, l) :: f.timeline := by
  simp only [timeline, fix, List.map_cons, LiteralTable.get_set, if_true, Option.getD_some]
  congr 1
  apply List.map_congr_left
  intro y hy
  have hly : l ≠ y := fun h => hl (h.symm ▸ hy)
  rw [if_neg hly]

theorem isTrue_fix : (f.fix l k).isTrue x = true ↔ x = l ∨ f.isTrue x = true := by
  simp only [isTrue, fix, LiteralTable.get_set]
  split
  · rename_i h
    simp [h]
  · rename_i h
    simp [Ne.symm h]

theorem Timely.fix (H : Timely f c) (hck : c ≤ k) (hl : Trail.Open f.trail l) :
    Timely (f.fix l k) k where
  isTrue y := by
    rw [isTrue_fix, H.isTrue]
    exact List.mem_cons.symm
  ordered := by
    rw [timeline_fix hl.1]
    exact H.ordered.cons hck (literals_timeline (f := f) ▸ hl)
  sorted := H.sorted
  le e he := Nat.le_trans (H.le e he) hck
  sound e he := by
    rw [timeline_fix hl.1]
    exact (H.sound e he).mono (Timeline.upTo_cons_subset)

theorem Maintains.timeline (H : Maintains x k f g) : g.timeline = f.timeline := by
  rw [Watched.timeline, H.trail, H.levels, Watched.timeline]

theorem Timely.maintains (H : Timely f k) (hfg : Maintains x k f g) : Timely g k := by
  obtain ⟨new, heq, hnew⟩ := hfg.satisfied
  refine ⟨fun y => ?_, hfg.timeline ▸ H.ordered, ?_, fun e he => ?_, fun e he => ?_⟩
  · rw [hfg.isTrue, hfg.trail]
    exact H.isTrue y
  · rw [heq, List.pairwise_append]
    refine ⟨?_, H.sorted, fun a ha b hb => (hnew a ha).1 ▸ H.le b hb⟩
    exact List.pairwise_of_forall_mem_list fun a ha b hb =>
      Nat.le_of_eq ((hnew b hb).1.trans (hnew a ha).1.symm)
  · rw [heq] at he
    rcases List.mem_append.mp he with he | he
    · exact Nat.le_of_eq (hnew e he).1
    · exact H.le e he
  · rw [heq] at he
    rw [hfg.timeline, hfg.body]
    rcases List.mem_append.mp he with he | he
    · obtain ⟨hk, y, hy, htrue⟩ := hnew e he
      exact ⟨y, hy, by rw [hk, H.upTo_eq_trail (Nat.le_refl k)]; exact (H.isTrue y).mp htrue⟩
    · exact H.sound e he

/-! ### Undoing -/

private theorem undoTrail_spec (trail : List (BoundedLiteral n))
    (levels : LiteralTable n (Option Level)) (hnodup : trail.Nodup) :
    (undoTrail k trail levels).1 = trail.dropWhile (fun l => !(levels.get l).any (· ≤ k)) ∧
      ∀ y, (undoTrail k trail levels).2.get y =
        if y ∈ trail.takeWhile (fun l => !(levels.get l).any (· ≤ k)) then none else levels.get y := by
  induction trail generalizing levels with
  | nil => simp [undoTrail]
  | cons l trail ih =>
    obtain ⟨hl, hnodup⟩ := List.nodup_cons.mp hnodup
    by_cases hk : (levels.get l).any (· ≤ k) = true
    · simp [undoTrail, hk]
    · obtain ⟨htrail, hlevels⟩ := ih (levels.set l none) hnodup
      have hsame (y) (hy : y ∈ trail) : (!((levels.set l none).get y).any (· ≤ k)) =
          !(levels.get y).any (· ≤ k) := by
        have hly : l ≠ y := fun h => hl (h.symm ▸ hy)
        rw [LiteralTable.get_set, if_neg hly]
      rw [dropWhile_congr hsame] at htrail
      rw [takeWhile_congr hsame] at hlevels
      rw [undoTrail, if_neg hk]
      refine ⟨by rw [htrail, List.dropWhile_cons_of_pos (by simpa using hk)], fun y => ?_⟩
      rw [hlevels, LiteralTable.get_set, List.takeWhile_cons_of_pos (by simpa using hk)]
      by_cases hly : l = y
      · simp [hly]
      · simp [hly, Ne.symm hly]

/-- A clause that is no longer known to be satisfied. -/
private def forget (c : WatchedClause n) : WatchedClause n := { c with knownSatisfied := false }

private theorem undoSatisfied_spec (log : List (Fin m × Level)) (f : Watched n m) :
    ∃ clauses checked, undoSatisfied k log f =
        { f with clauses, satisfied := log.dropWhile (k < ·.2), checkedClauses := checked } ∧
      ∀ j, clauses.get j = if j ∈ (log.takeWhile (k < ·.2)).map (·.1)
        then forget (f.clauses.get j) else f.clauses.get j := by
  induction log generalizing f with
  | nil => exact ⟨f.clauses, f.checkedClauses, rfl, by simp⟩
  | cons e log ih =>
    obtain ⟨i, s⟩ := e
    by_cases hs : s ≤ k
    · refine ⟨f.clauses, f.checkedClauses + 1, ?_, ?_⟩
      · simp [undoSatisfied, hs, countCheck]
      · simp [hs]
    · have hlt : k < s := Nat.lt_of_not_le hs
      obtain ⟨clauses, checked, heq, hget⟩ := ih { f.countCheck with
        clauses := modifyAt f.clauses i forget }
      refine ⟨clauses, checked, ?_, fun j => ?_⟩
      · rw [undoSatisfied, if_neg hs]
        rw [List.dropWhile_cons_of_pos (by simpa using hlt)]
        exact heq
      · rw [hget, List.takeWhile_cons_of_pos (by simpa using hlt)]
        change (if _ then forget ((modifyAt f.clauses i forget).get j)
          else (modifyAt f.clauses i forget).get j) = _
        rw [get_modifyAt]
        by_cases hij : i = j
        · subst hij
          by_cases hmem : i ∈ (log.takeWhile (k < ·.2)).map (·.1) <;> simp [hmem, forget]
        · have hcons (is : List (Fin m)) : j ∈ i :: is ↔ j ∈ is := by simp [Ne.symm hij]
          simp only [if_neg hij, List.map_cons, hcons]

private theorem backtrack_spec (k : Level) (f : Watched n m) :
    ∃ clauses checked, f.backtrack k = { f with
      trail := (undoTrail k f.trail f.levels).1
      levels := (undoTrail k f.trail f.levels).2
      clauses
      satisfied := f.satisfied.dropWhile (k < ·.2)
      conflict := false
      checkedClauses := checked } ∧
      ∀ j, clauses.get j = if j ∈ (f.satisfied.takeWhile (k < ·.2)).map (·.1)
        then forget (f.clauses.get j) else f.clauses.get j := by
  obtain ⟨clauses, checked, heq, hget⟩ := undoSatisfied_spec (k := k) f.satisfied { f with
    trail := (undoTrail k f.trail f.levels).1
    levels := (undoTrail k f.trail f.levels).2 }
  refine ⟨clauses, checked, ?_, hget⟩
  rw [backtrack]
  dsimp only
  rw [heq]

theorem trail_backtrack : (f.backtrack k).trail = (undoTrail k f.trail f.levels).1 := by
  obtain ⟨_, _, heq, _⟩ := backtrack_spec k f
  rw [heq]

theorem levels_backtrack : (f.backtrack k).levels = (undoTrail k f.trail f.levels).2 := by
  obtain ⟨_, _, heq, _⟩ := backtrack_spec k f
  rw [heq]

theorem satisfied_backtrack : (f.backtrack k).satisfied = f.satisfied.dropWhile (k < ·.2) := by
  obtain ⟨_, _, heq, _⟩ := backtrack_spec k f
  rw [heq]

theorem conflict_backtrack : (f.backtrack k).conflict = false := rfl

theorem hasEmptyClause_backtrack : (f.backtrack k).hasEmptyClause = f.hasEmptyClause := by
  obtain ⟨_, _, heq, _⟩ := backtrack_spec k f
  rw [heq]

theorem queue_backtrack : (f.backtrack k).queue = f.queue := by
  obtain ⟨_, _, heq, _⟩ := backtrack_spec k f
  rw [heq]

theorem watchers_backtrack (u : Watch) : (f.backtrack k).watchers u x = f.watchers u x := by
  obtain ⟨_, _, heq, _⟩ := backtrack_spec k f
  rw [heq]
  cases u <;> rfl

private theorem get_clauses_backtrack : (f.backtrack k).clauses.get j =
    if j ∈ (f.satisfied.takeWhile (k < ·.2)).map (·.1)
      then forget (f.clauses.get j) else f.clauses.get j := by
  obtain ⟨_, _, heq, hget⟩ := backtrack_spec k f
  rw [heq]
  exact hget j

theorem body_backtrack : (f.backtrack k).body j = f.body j := by
  rw [body, get_clauses_backtrack]
  split <;> rfl

theorem watched_backtrack (u : Watch) : (f.backtrack k).watched u j = f.watched u j := by
  rw [watched, get_clauses_backtrack]
  split
  · cases u <;> rfl
  · rfl

theorem queued_backtrack : (f.backtrack k).Queued j ↔ f.Queued j := by
  rw [Queued, get_clauses_backtrack]
  split <;> rfl

theorem Placed.backtrack (H : Placed f) : Placed (f.backtrack k) := by
  refine H.congr (fun j => body_backtrack) (fun j u => ?_) fun u x => watchers_backtrack u
  rw [get_clauses_backtrack]
  split
  · cases u <;> rfl
  · rfl

theorem Logged.backtrack (H : Logged f) : Logged (f.backtrack k) := by
  have hsatisfied : (f.backtrack k).satisfied = f.satisfied.dropWhile (k < ·.2) := satisfied_backtrack
  have hsplit : (f.satisfied.takeWhile (k < ·.2)).map (·.1) ++
      (f.satisfied.dropWhile (k < ·.2)).map (·.1) = f.satisfied.map (·.1) := by
    rw [← List.map_append, List.takeWhile_append_dropWhile]
  have hnodup := H.nodup_satisfied
  rw [← hsplit] at hnodup
  obtain ⟨_, hold, hdisjoint⟩ := List.nodup_append.mp hnodup
  refine ⟨fun j => ?_, (queue_backtrack (f := f) ▸ H.nodup_queue), fun j => ?_, hsatisfied ▸ hold⟩
  · rw [queued_backtrack, queue_backtrack, H.queued]
  · rw [Known, get_clauses_backtrack, hsatisfied]
    split
    · rename_i hj
      simp only [forget, Bool.false_eq_true, false_iff]
      exact fun hmem => hdisjoint j hj j hmem rfl
    · rename_i hj
      have hknown := H.known j
      rw [Known, ← hsplit, List.mem_append] at hknown
      exact hknown.trans (or_iff_right hj)

namespace Timely

variable (H : Timely f c)

include H

theorem nodup_trail : f.trail.Nodup := List.Nodup.of_map _ H.consistent

theorem satisfied_backtrack : (f.backtrack k).satisfied = f.satisfied.filter (·.2 ≤ k) :=
  Watched.satisfied_backtrack.trans (dropWhile_eq_filter_of_sorted Prod.snd H.sorted)

theorem trail_backtrack :
    (f.backtrack k).trail = f.trail.dropWhile (fun l => !(f.levels.get l).any (· ≤ k)) :=
  Watched.trail_backtrack.trans (undoTrail_spec f.trail f.levels H.nodup_trail).1

theorem levels_backtrack (y : BoundedLiteral n) : (f.backtrack k).levels.get y =
    if y ∈ f.trail.takeWhile (fun l => !(f.levels.get l).any (· ≤ k)) then none
    else f.levels.get y := by
  rw [Watched.levels_backtrack]
  exact (undoTrail_spec f.trail f.levels H.nodup_trail).2 y

/-- What is kept of the trail is not forgotten. -/
theorem not_mem_takeWhile {p : BoundedLiteral n → Bool} {y : BoundedLiteral n}
    (hy : y ∈ f.trail.dropWhile p) : y ∉ f.trail.takeWhile p := fun hy' => by
  have hnodup := H.nodup_trail
  rw [← List.takeWhile_append_dropWhile (p := p) (l := f.trail)] at hnodup
  exact (List.nodup_append.mp hnodup).2.2 y hy' y hy rfl

theorem timeline_backtrack : (f.backtrack k).timeline = f.timeline.filter (·.1 ≤ k) := by
  have habove (l) (hl : l ∈ f.trail) : (!(f.levels.get l).any (· ≤ k)) =
      decide (k < ((f.levels.get l).getD 0)) := by
    obtain ⟨s, hs⟩ := Option.isSome_iff_exists.mp ((H.isTrue l).mpr hl)
    simp [hs, ← decide_not]
  have hlevel (y) (hy : y ∈ (f.backtrack k).trail) :
      (f.backtrack k).levels.get y = f.levels.get y := by
    rw [H.trail_backtrack] at hy
    rw [H.levels_backtrack, if_neg (H.not_mem_takeWhile hy)]
  calc (f.backtrack k).timeline
    _ = (f.backtrack k).trail.map fun l => ((f.levels.get l).getD 0, l) :=
      List.map_congr_left fun y hy => by rw [hlevel y hy]
    _ = (f.trail.dropWhile fun l => k < ((f.levels.get l).getD 0)).map
        fun l => ((f.levels.get l).getD 0, l) := by
      rw [H.trail_backtrack, dropWhile_congr habove]
    _ = f.timeline.dropWhile (k < ·.1) := by
      rw [timeline, List.dropWhile_map]
      rfl
    _ = f.timeline.filter (·.1 ≤ k) := Timeline.dropWhile_eq_filter H.ordered.sorted

theorem backtrack : Timely (f.backtrack k) (min c k) where
  isTrue y := by
    rw [Watched.isTrue, H.levels_backtrack, H.trail_backtrack]
    have hy := H.isTrue y
    rw [Watched.isTrue, ← List.takeWhile_append_dropWhile (p := fun l => !(f.levels.get l).any (· ≤ k))
      (l := f.trail), List.mem_append] at hy
    split
    · rename_i hmem
      simp only [Option.isSome_none, Bool.false_eq_true, false_iff]
      exact fun hy' => H.not_mem_takeWhile hy' hmem
    · rename_i hmem
      exact hy.trans (or_iff_right hmem)
  ordered := H.timeline_backtrack ▸ H.ordered.filter
  sorted := H.satisfied_backtrack ▸ H.sorted.filter _
  le e he := by
    rw [H.satisfied_backtrack, List.mem_filter, decide_eq_true_eq] at he
    exact Nat.le_min.mpr ⟨H.le e he.1, he.2⟩
  sound e he := by
    rw [H.satisfied_backtrack, List.mem_filter, decide_eq_true_eq] at he
    rw [H.timeline_backtrack, Timeline.upTo_filter, Nat.min_eq_left he.2, body_backtrack]
    exact H.sound e he.1

end Timely

end Watched

end Dpll
