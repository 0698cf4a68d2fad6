import Dpll.Proofs.Watched.Laws
import Dpll.Proofs.Watched.Sound

/-! What the queue of a watched formula still holds. Propagation at a level empties it, also of clauses
that are to be looked at again on lower levels, and a conflict empties it of everything. From the level
of the last propagation upwards nothing is missing (`Watched.Backlog`); a return to a level below, or
from a conflict, may only lead to a trail that settles every clause (`Moves.Careful`). -/

namespace Dpll

open Backtrackable

variable {n m : Nat}

/-- The level of the last propagation, lowered by returns since. -/
def Moves.reach : Moves n → Level
  | [] => 0
  | .assign _ _ :: ms => reach ms
  | .propagate k :: _ => k
  | .undo k :: ms => min (reach ms) k

/-- Every return to a level finds all clauses settled on it, unless it starts without a conflict and
goes no lower than propagation has reached. -/
def Moves.Careful {σ : Type} [Backtrackable σ (BoundedLiteral n)]
    (cs : List (List (BoundedLiteral n))) (f : σ) : Moves n → Prop
  | [] => True
  | .assign _ _ :: ms => Careful cs f ms
  | .propagate _ :: ms => Careful cs f ms
  | .undo k :: ms => Careful cs f ms ∧
    (isUnsatisfiable (after f ms) = false ∧ reach ms ≤ k ∨
      ∀ d ∈ cs, ((history f ms).upTo k).Settles d)

theorem Moves.Rising.reach_le_level {σ : Type} [Backtrackable σ (BoundedLiteral n)] {f : σ}
    {ms : Moves n} (h : ms.Rising f) : ms.reach ≤ ms.level := by
  induction h with
  | nil => exact Nat.le_refl 0
  | assign _ hk _ ih => exact Nat.le_trans ih hk
  | propagate => exact Nat.le_refl _
  | undo _ ih =>
    rw [Moves.reach, Moves.level]
    lia

/-- The agenda of all clauses, which need not be met again on lower levels. -/
def Agenda.current (bodies : Fin m → List (BoundedLiteral n)) : Agenda bodies :=
  { Agenda.unsettled bodies with
    whole := False
    settles := False.elim }

namespace Watched

variable {cs : List (List (BoundedLiteral n))} {f g : Watched n cs.length} {D : Timeline n}
  {c j k p q : Level} {l x : BoundedLiteral n} {i : Fin cs.length} {ms : Moves n}

/-- From level `q` upwards every clause that is not settled is in the queue. A conflict is one of a
level up to `q`, below which nothing was missed. -/
structure Backlog (q : Level) (f : Watched n cs.length) : Prop where
  attends : f.conflict = false → f.Attends f.timeline
  due : f.conflict = false → ∀ j, q ≤ j → ∀ i : Fin cs.length,
    ¬(f.timeline.upTo j).Settles (cs.get i).eraseDups → f.Queued i
  conflict : f.conflict = true → ∃ p ≤ q, (∃ d ∈ cs, (f.timeline.upTo p).Falsifies d) ∧
    ∀ j < p, f.Attends (f.timeline.filter (·.1 ≤ j))

namespace Backlog

theorem ofClauses (hcs : [] ∉ cs) : Backlog 0 (ofClauses cs) where
  attends _ := by
    rw [timeline_ofClauses]
    exact nofun
  due _ j _ i hi := by
    rw [queued_ofClauses, body_ofClauses]
    have hne : (cs.get i).eraseDups ≠ [] := fun h =>
      hcs (eraseDups_eq_nil_iff.mp h ▸ List.get_mem cs i)
    have hpos := List.length_pos_iff.mpr hne
    have hle : ¬1 < (cs.get i).eraseDups.length := fun hlen => by
      rw [timeline_ofClauses] at hi
      exact hi (Trail.settles_nil (nodup_eraseDups _) hlen)
    lia
  conflict h := absurd (conflict_ofClauses.symm.trans h) (by simp)

theorem assign (B : Backlog q f) (H : Sound cs D c f) (hcs : [] ∉ cs) (hqc : q ≤ c) (hck : c ≤ k)
    (ho : Trail.Open f.trail l) : Backlog q (f.assign l k) := by
  have A := assign_spec H.placed H.logged H.timely hck ho
  obtain ⟨H', htime⟩ := H.assign hck ho
  generalize f.assign l k = g at A H' htime ⊢
  have hconflict : g.conflict = f.conflict := A.maintains.conflict
  have he : f.hasEmptyClause = false := Bool.eq_false_iff.mpr (mt H.empty.mp hcs)
  have hu (hc : f.conflict = false) : f.isUnsatisfiable = false := by
    rw [isUnsatisfiable, he, hc, Bool.or_self]
  refine ⟨fun hc => ?_, fun hc j hj i hi => ?_, fun hc => ?_⟩
  · rw [hconflict] at hc
    rw [htime]
    intro e hmem u
    rcases List.mem_cons.mp hmem with rfl | hmem
    · exact A.heeds_self (hu hc) u
    · exact A.heeds e hmem u (B.attends hc e hmem u)
  · rw [hconflict] at hc
    have hold (j) (hj : q ≤ j) (hi : ¬(f.timeline.upTo j).Settles (cs.get i).eraseDups) : g.Queued i :=
      A.maintains.queued H.logged.fix A.logged (B.due hc j hj i hi)
    by_cases hjk : j < k
    · rw [htime, Timeline.upTo_cons_of_lt hjk] at hi
      exact hold j hj hi
    · have hkj : k ≤ j := Nat.le_of_not_lt hjk
      rw [H'.timely.upTo_eq_trail hkj, A.maintains.trail] at hi
      rcases (Agenda.unsettled fun i : Fin cs.length => (cs.get i).eraseDups).of_cons hi with
        hi | ⟨hlen, hmem⟩
      · refine hold j hj ?_
        rw [H.timely.upTo_eq_trail (Nat.le_trans hck hkj)]
        exact hi
      · rw [← H.body] at hlen hmem hi
        exact A.queued (hu hc) (B.attends hc) i hlen hmem hi
  · rw [hconflict] at hc
    obtain ⟨p, hp, ⟨d, hd, hf⟩, hbelow⟩ := B.conflict hc
    rw [htime]
    refine ⟨p, hp, ⟨d, hd, hf.mono Timeline.upTo_cons_subset⟩, fun j hj e he u => ?_⟩
    obtain ⟨hmem, hle⟩ := List.mem_filter.mp he
    have hek : e.1 < k := by
      have := of_decide_eq_true hle
      lia
    rcases List.mem_cons.mp hmem with rfl | hmem
    · exact absurd hek (Nat.lt_irrefl k)
    · exact A.heeds e hmem u (hbelow j hj e (List.mem_filter.mpr ⟨hmem, hle⟩) u)

theorem tracks (B : Backlog q f) (H : Sound cs D c f) (hc : f.conflict = false) (hqc : q ≤ c)
    (hck : c ≤ k) : Tracks (Agenda.current fun i : Fin cs.length => (cs.get i).eraseDups) k [] f where
  placed := H.placed
  logged := H.logged
  timely := H.timely.mono hck
  body := H.body
  empty := H.empty.trans nil_mem_iff
  root := List.nil_subset _
  seen _ _ := trivial
  attends _ := B.attends hc
  due _ i hi := .inl <| by
    refine B.due hc k (Nat.le_trans hqc hck) i ?_
    rw [H.timely.upTo_eq_trail hck]
    exact hi
  prompt _ := False.elim

theorem clearQueue (B : Backlog q f) (hqk : q ≤ k) (hc : f.conflict = true) :
    Backlog k f.clearQueue := by
  have hret : Retains f f.clearQueue := retains_clearQueue
  have hconflict : f.clearQueue.conflict = true := hc
  refine ⟨fun h => ?_, fun h => ?_, fun _ => ?_⟩
  · exact absurd (hconflict.symm.trans h) (by simp)
  · exact absurd (hconflict.symm.trans h) (by simp)
  · obtain ⟨p, hp, hf, hbelow⟩ := B.conflict hc
    rw [hret.timeline]
    exact ⟨p, Nat.le_trans hp hqk, hf, fun j hj => hret.attends (hbelow j hj)⟩

/-- Propagation ends with all clauses settled, or with a conflict. -/
theorem unitPropagate (B : Backlog q f) (H : Sound cs D c f) (hcs : [] ∉ cs) (hqc : q ≤ c)
    (hck : c ≤ k) : Backlog k (f.unitPropagate k) ∧
      ((f.unitPropagate k).isUnsatisfiable = true ∨
        ∀ d ∈ cs, Trail.Settles (f.unitPropagate k).trail d) := by
  have he : f.hasEmptyClause = false := Bool.eq_false_iff.mpr (mt H.empty.mp hcs)
  cases hc : f.conflict with
  | true =>
    have hu : f.isUnsatisfiable = true := by rw [isUnsatisfiable, hc, Bool.or_true]
    rw [Watched.unitPropagate, if_pos hu]
    exact ⟨B.clearQueue (Nat.le_trans hqc hck) hc, .inl hu⟩
  | false =>
    obtain ⟨T', hqueue, hprop, hex⟩ :=
      (B.tracks H hc hqc hck).unitPropagate hc ((enforces_unsettled cs).covered)
    have he' : (f.unitPropagate k).hasEmptyClause = false := hprop.hasEmptyClause.trans he
    have htrail : (f.unitPropagate k).timeline.upTo k = (f.unitPropagate k).trail :=
      T'.timely.upTo_eq_trail (Nat.le_refl k)
    have hsettled (hu : (f.unitPropagate k).isUnsatisfiable = false) (i : Fin cs.length) :
        Trail.Settles (f.unitPropagate k).trail (cs.get i).eraseDups := by
      by_contra hi
      rcases T'.due hu i hi with hq | hmem
      · rw [T'.logged.queued, hqueue] at hq
        cases hq
      · cases hmem
    refine ⟨⟨fun _ => T'.attends he', fun hc' j hj i hi => ?_, fun hc' => ?_⟩, ?_⟩
    · refine absurd (hsettled ?_ i) ?_
      · rw [isUnsatisfiable, he', hc', Bool.or_self]
      · rwa [← T'.timely.upTo_eq_trail hj]
    · obtain ⟨i, -, hi⟩ := hex hc'
      refine ⟨k, Nat.le_refl k, ⟨cs.get i, List.get_mem cs i, ?_⟩, fun j _ => ?_⟩
      · rw [htrail]
        exact Trail.falsifies_eraseDups.mp hi
      · exact (T'.attends he').mono (List.filter_subset_self _)
    · cases hu : (f.unitPropagate k).isUnsatisfiable with
      | true => exact .inl rfl
      | false =>
        refine .inr fun d hd => ?_
        obtain ⟨i, hi, rfl⟩ := List.mem_iff_getElem.mp hd
        exact Trail.settles_eraseDups.mp (hsettled hu ⟨i, hi⟩)

/-- A return misses nothing if it goes no lower than propagation has reached, or if it leads to a
trail on which all clauses are settled. -/
theorem backtrack (B : Backlog q f) (H : Sound cs D c f)
    (hj : f.conflict = false ∧ q ≤ j ∨ ∀ d ∈ cs, (f.timeline.upTo j).Settles d) :
    Backlog (min q j) (f.backtrack j) := by
  have htime := H.timely.timeline_backtrack (k := j)
  -- the level of a conflict is not returned to
  have hlow (p) (hf : ∃ d ∈ cs, (f.timeline.upTo p).Falsifies d)
      (hs : ∀ d ∈ cs, (f.timeline.upTo j).Settles d) : j < p := by
    by_contra hpj
    obtain ⟨d, hd, hf⟩ := hf
    have hsub : f.timeline.upTo p ⊆ f.timeline.upTo j := fun x hx => by
      obtain ⟨a, ha, hmem⟩ := Timeline.mem_upTo.mp hx
      exact Timeline.mem_upTo.mpr ⟨a, Nat.le_trans ha (Nat.le_of_not_lt hpj), hmem⟩
    exact (H.timely.ordered.filter (k := j)).consistent.not_settles (hf.mono hsub) (hs d hd)
  refine ⟨fun _ => .backtrack H.timely ?_, fun _ a ha i hi => ?_,
    fun hc => absurd (conflict_backtrack.symm.trans hc) (by simp)⟩
  · cases hc : f.conflict with
    | false => exact (B.attends hc).mono (List.filter_subset_self _)
    | true =>
      obtain ⟨p, -, hf, hbelow⟩ := B.conflict hc
      refine hbelow j (hlow p hf (hj.resolve_left ?_))
      rintro ⟨hc', -⟩
      exact absurd (hc.symm.trans hc') (by simp)
  · rw [htime, Timeline.upTo_filter] at hi
    rw [queued_backtrack]
    rcases hj with ⟨hc, hqj⟩ | hs
    · exact B.due hc (min a j) (by lia) i hi
    · by_cases haj : j ≤ a
      · rw [Nat.min_eq_right haj] at hi
        exact absurd (Trail.settles_eraseDups.mpr (hs _ (List.get_mem cs i))) hi
      · cases hc : f.conflict with
        | false => exact B.due hc (min a j) (by lia) i hi
        | true =>
          obtain ⟨p, hp, hf, -⟩ := B.conflict hc
          have := hlow p hf hs
          lia

theorem after (h : ms.Rising (Watched.ofClauses cs)) (hcs : [] ∉ cs)
    (hms : ms.Careful cs (Watched.ofClauses cs)) :
    Backlog ms.reach (ms.after (Watched.ofClauses cs)) := by
  induction h with
  | nil => exact ofClauses hcs
  | @assign ms k l h hk hl ih =>
    obtain ⟨H, -⟩ := Sound.after h
    have ho : Trail.Open (ms.after (Watched.ofClauses cs)).trail l := Trail.open_reverse.mp hl
    have hB := (ih hms).assign H hcs h.reach_le_level hk ho
    exact hB
  | @propagate ms k h hk ih =>
    obtain ⟨H, -⟩ := Sound.after h
    exact ((ih hms).unitPropagate H hcs h.reach_le_level hk).1
  | @undo ms k h ih =>
    obtain ⟨H, hE⟩ := Sound.after h
    refine (ih hms.1).backtrack H ?_
    rw [hE]
    exact hms.2.imp_left fun h => ⟨(Bool.or_eq_false_iff.mp h.1).2, h.2⟩

end Backlog

/-! ### Propagation right after a return -/

theorem queue_unitPropagate (f : Watched n m) (k : Level) : (f.unitPropagate k).queue.toList = [] := by
  obtain ⟨g, -, hend⟩ := unitPropagate_induction (f := f) (k := k) (P := fun _ => True) trivial
    fun _ _ _ _ _ _ => trivial
  rcases hend with ⟨-, heq⟩ | ⟨-, hqueue, heq⟩
  · rw [heq]
    rfl
  · rw [heq, hqueue]

theorem unitPropagate_of_queue {f : Watched n m} (hq : f.queue.toList = [])
    (hu : f.isUnsatisfiable = false) : f.unitPropagate k = f := by
  rw [Watched.unitPropagate, if_neg (by simp [hu])]
  split
  · rfl
  · rename_i hpop
    rw [Queue.toList_of_pop? hpop] at hq
    cases hq

/-- Propagation looks at nothing right after a return. -/
theorem settles_backtrack_iff (H : Sound cs D c f) (hck : c ≤ k) (j p : Level) :
    (((f.unitPropagate k).backtrack j).unitPropagate p).isUnsatisfiable = true ∨
      (∀ d ∈ cs, Trail.Settles (((f.unitPropagate k).backtrack j).unitPropagate p).trail d) ↔
    [] ∈ cs ∨ ∀ d ∈ cs, ((f.unitPropagate k).timeline.upTo j).Settles d := by
  obtain ⟨H', -⟩ := H.unitPropagate hck
  have hqueue := queue_unitPropagate f k
  generalize f.unitPropagate k = g at H' hqueue ⊢
  by_cases hcs : [] ∈ cs
  · have hu : (g.backtrack j).isUnsatisfiable = true := by
      rw [isUnsatisfiable_backtrack]
      exact H'.empty.mpr hcs
    refine iff_of_true (.inl ?_) (.inl hcs)
    rw [Watched.unitPropagate, if_pos hu]
    exact hu
  · have hu : (g.backtrack j).isUnsatisfiable = false := by
      rw [isUnsatisfiable_backtrack]
      exact Bool.eq_false_iff.mpr (mt H'.empty.mp hcs)
    have htrail : (g.backtrack j).trail = g.timeline.upTo j := by
      rw [← literals_timeline, H'.timely.timeline_backtrack, Timeline.upTo]
    rw [unitPropagate_of_queue ((congrArg Queue.toList queue_backtrack).trans hqueue) hu, hu, htrail]
    simp [hcs]

end Watched

end Dpll
