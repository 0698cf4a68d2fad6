import Dpll.Proofs.Adjacency.Replay
import Dpll.Proofs.Moves
import Mathlib.Data.Finset.Dedup
import Mathlib.Data.Finset.Order

/-! Undoing everything above a level, whatever happened there. Above the level literals may come in any
order of levels, repeatedly and with both signs, so clauses keep removals that an inner undoing could
not reach. Such a clause still mentions a recorded literal of a lower level (`Adjacency.Above.clauses`),
and the undoing of that one reaches them all. -/

namespace Dpll

variable {n m : Nat} {j k L : Level} {l : BoundedLiteral n}

/-- A clause is left alone by undoing to a level above all of its own. -/
theorem ShrinkingClause.exists_backtrack_eq_self (c : ShrinkingClause n) (j : Level) :
    ∃ k, j ≤ k ∧ c.backtrack k = c := by
  obtain ⟨k, hk⟩ := (c.removals.map (·.level)).toFinset.exists_le
  refine ⟨max j (max k (c.satisfiedAt.getD 0)), Nat.le_max_left _ _, backtrack_eq_self ?_ ?_⟩
  · intro r hr
    have hle := hk r.level (by simpa using ⟨r, hr, rfl⟩)
    lia
  · intro s hs
    rw [hs, Option.getD_some]
    lia

namespace LevelTrail

variable {t : LevelTrail n}

theorem perm_record : (t.record l k).entries.Perm ((k, l) :: t.entries) := by
  have hsplit := List.takeWhile_append_dropWhile (p := (k < ·.1)) (l := t.entries)
  exact List.perm_middle.trans (.cons (k, l) (.of_eq hsplit))

theorem mem_record {e : Level × BoundedLiteral n} :
    e ∈ (t.record l k).entries ↔ e = (k, l) ∨ e ∈ t.entries :=
  perm_record.mem_iff.trans List.mem_cons

/-- What is recorded above a level leaves the levels below alone. -/
theorem filter_record (h : L < k) :
    (t.record l k).entries.filter (·.1 ≤ L) = t.entries.filter (·.1 ≤ L) := by
  conv_rhs => rw [← List.takeWhile_append_dropWhile (p := (k < ·.1)) (l := t.entries)]
  rw [record, List.filter_append, List.filter_append,
    List.filter_cons_of_neg (by simpa using h)]

theorem sorted_record (h : t.entries.Pairwise fun newer older => older.1 ≤ newer.1) :
    (t.record l k).entries.Pairwise fun newer older => older.1 ≤ newer.1 := by
  have hnew (e) (he : e ∈ t.entries.takeWhile (k < ·.1)) : k < e.1 := by
    simpa using List.mem_takeWhile_imp he
  have hold (e) (he : e ∈ t.entries.dropWhile (k < ·.1)) : e.1 ≤ k := by
    rw [Timeline.dropWhile_eq_filter h, List.mem_filter] at he
    exact of_decide_eq_true he.2
  rw [record, List.pairwise_append, List.pairwise_cons]
  refine ⟨h.sublist (List.takeWhile_sublist _), ⟨hold, h.sublist (List.dropWhile_sublist _)⟩, ?_⟩
  intro a ha b hb
  rcases List.mem_cons.mp hb with rfl | hb
  · exact Nat.le_of_lt (hnew a ha)
  · exact Nat.le_trans (hold b hb) (Nat.le_of_lt (hnew a ha))

theorem mem_above (h : t.entries.Pairwise fun newer older => older.1 ≤ newer.1)
    {e : Level × BoundedLiteral n} (he : e ∈ t.entries) (hk : k < e.1) : e.2 ∈ t.above k := by
  rw [← List.takeWhile_append_dropWhile (p := (k < ·.1)) (l := t.entries), List.mem_append,
    Timeline.dropWhile_eq_filter h, List.mem_filter, decide_eq_true_eq] at he
  exact List.mem_map_of_mem (he.resolve_right fun h => Nat.not_le_of_lt hk h.2)

end LevelTrail

namespace Adjacency

variable {f g : Adjacency n m}

/-- The formula `g` came from `f` by calls above level `L`. -/
structure Above (L : Level) (f g : Adjacency n m) : Prop where
  occurrences : g.occurrences = f.occurrences
  nodup : ∀ p : Fin n, (f.occurrences.get p).toList.Nodup
  sorted : g.assigned.entries.Pairwise fun newer older => older.1 ≤ newer.1
  kept : g.assigned.entries.filter (·.1 ≤ L) = f.assigned.entries
  /-- Undoing to a level brings a clause back, unless it mentions a literal recorded in between. -/
  clauses : ∀ i k, L ≤ k →
    (∀ e ∈ g.assigned.entries, L < e.1 → e.1 ≤ k → i ∉ (f.occurrences.get e.2.position).toList) →
    (g.clauses.get i).backtrack k = f.clauses.get i
  unsatisfiableAt : g.unsatisfiableAt.filter (· ≤ L) = f.unsatisfiableAt

namespace Above

theorem assign (H : Above L f g) (h : L < k) : Above L f (g.assign l k) := by
  have hnodup : (g.occurrences.get l.position).toList.Nodup := H.occurrences ▸ H.nodup l.position
  refine ⟨occurrences_assign.trans H.occurrences, H.nodup, ?_, ?_, fun i j hj hno => ?_, ?_⟩
  · rw [assigned_assign]
    exact LevelTrail.sorted_record H.sorted
  · rw [assigned_assign, LevelTrail.filter_record h]
    exact H.kept
  · rw [assigned_assign] at hno
    have hold := H.clauses i j hj fun e he => hno e (LevelTrail.mem_record.mpr (.inr he))
    rw [clauses_assign hnodup, H.occurrences]
    split
    · -- a clause that is visited mentions the literal recorded at `k`, so `j` must be lower
      rename_i hi
      have hlt : j < k := by
        by_contra hle
        exact hno (k, l) (LevelTrail.mem_record.mpr (.inl rfl)) h (Nat.le_of_not_lt hle) hi
      rw [ShrinkingClause.backtrack_assign hlt]
      exact hold
    · exact hold
  · have hk : ¬k ≤ L := Nat.not_le_of_lt h
    rw [unsatisfiableAt_assign hnodup, ← H.unsatisfiableAt]
    cases g.unsatisfiableAt with
    | none => split <;> simp [Option.filter, hk]
    | some s => rfl

theorem propagateFor (H : Above L f g) (h : L < k) (rounds : Nat) :
    Above L f (g.propagateFor k rounds) := by
  fun_induction Adjacency.propagateFor k rounds g with
  | case1 | case2 | case3 => exact H
  | case4 rounds g _ l _ f' ih =>
    have H' := H.assign (l := l) h
    exact ih ⟨H'.occurrences, H'.nodup, H'.sorted, H'.kept, H'.clauses, H'.unsatisfiableAt⟩

theorem backtrack (H : Above L f g) (h : L ≤ k) : Above L f (g.backtrack k) := by
  have hentries : (g.backtrack k).assigned.entries = g.assigned.entries.filter (·.1 ≤ k) :=
    Timeline.dropWhile_eq_filter H.sorted
  refine ⟨H.occurrences, H.nodup, ?_, ?_, fun i j hj hno => ?_, ?_⟩
  · rw [hentries]
    exact H.sorted.filter _
  · rw [hentries, List.filter_filter, ← H.kept]
    apply List.filter_congr
    intro e _
    rw [Bool.eq_iff_iff]
    simp only [Bool.and_eq_true, decide_eq_true_eq]
    lia
  · rw [hentries] at hno
    -- no literal up to the lower of the two levels mentions the clause
    have hlow (e) (he : e ∈ g.assigned.entries) (hL : L < e.1) (hle : e.1 ≤ min k j) :
        i ∉ (f.occurrences.get e.2.position).toList :=
      hno e (List.mem_filter.mpr ⟨he, decide_eq_true (Nat.le_trans hle (Nat.min_le_left _ _))⟩) hL
        (Nat.le_trans hle (Nat.min_le_right _ _))
    rw [clauses_backtrack]
    split
    · rw [ShrinkingClause.backtrack_backtrack]
      exact H.clauses i _ (Nat.le_min.mpr ⟨h, hj⟩) hlow
    · rename_i hunseen
      refine H.clauses i j hj fun e he hL hle hi => ?_
      by_cases hek : e.1 ≤ k
      · exact hlow e he hL (Nat.le_min.mpr ⟨hek, hle⟩) hi
      · refine hunseen ⟨e.2, LevelTrail.mem_above H.sorted he (Nat.lt_of_not_le hek), ?_⟩
        exact H.occurrences ▸ Array.mem_toList_iff.mp hi
  · change (g.unsatisfiableAt.filter (· ≤ k)).filter (· ≤ L) = _
    rw [← H.unsatisfiableAt, Option.filter_filter]
    congr 1
    funext s
    rw [Bool.eq_iff_iff]
    simp only [Bool.and_eq_true, decide_eq_true_eq]
    lia

/-- Undoing to the level restores the formula. -/
theorem restored (H : Above L f g) : (∀ i : Fin m, (g.backtrack L).clauses.get i = f.clauses.get i) ∧
    (g.backtrack L).assigned = f.assigned ∧ (g.backtrack L).unsatisfiableAt = f.unsatisfiableAt := by
  have hentries : (g.backtrack L).assigned.entries = g.assigned.entries.filter (·.1 ≤ L) :=
    Timeline.dropWhile_eq_filter H.sorted
  refine ⟨fun i => ?_, congrArg LevelTrail.mk (hentries.trans H.kept), H.unsatisfiableAt⟩
  rw [clauses_backtrack]
  split
  · exact H.clauses i L (Nat.le_refl L) fun e _ hL hle => absurd hle (Nat.not_le_of_lt hL)
  · -- a clause that is not visited mentions no literal above the level, so nothing happened to it
    rename_i hunseen
    obtain ⟨k, hk, hself⟩ := (g.clauses.get i).exists_backtrack_eq_self L
    rw [← hself]
    refine H.clauses i k hk fun e he hL _ hi => hunseen ⟨e.2, LevelTrail.mem_above H.sorted he hL, ?_⟩
    exact H.occurrences ▸ Array.mem_toList_iff.mp hi

theorem refl {cs : List (List (BoundedLiteral n))} {f : Adjacency n cs.length} {c : Level}
    (H : Follows cs f c) (hc : c ≤ L) : Above L f f where
  occurrences := rfl
  nodup p := H.occurrences ▸ nodup_occurrences p
  sorted := H.ordered.sorted
  kept := H.ordered.filter_eq_self hc
  clauses i k hk _ := by
    have hlevels := @ShrinkingClause.levels_replay_le n k f.assigned.entries (cs.get i) fun e he =>
      Nat.le_trans (H.ordered.le e he) (Nat.le_trans hc hk)
    rw [H.clauses i]
    exact ShrinkingClause.backtrack_eq_self hlevels.1 hlevels.2
  unsatisfiableAt := by
    cases hs : f.unsatisfiableAt with
    | none => rfl
    | some s => simp [Option.filter, Nat.le_trans (H.le_of_unsatisfiableAt hs) hc]

theorem after (H : Above L f f) {A : Trail n} {ms : Moves n} (h : ∀ m ∈ ms, m.Above L A) :
    Above L f (ms.after f) := by
  refine Moves.after_induction H ?assign ?propagate ?undo
  case assign => exact fun g l k hm H' => H'.assign (h _ hm).1
  case propagate => exact fun g k hm H' => H'.propagateFor (h _ hm) _
  case undo => exact fun g k hm H' => H'.backtrack (h _ hm)

end Above

end Adjacency

end Dpll
