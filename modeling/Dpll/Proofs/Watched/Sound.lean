import Dpll.Proofs.Moves
import Dpll.Proofs.Watched.Construction

/-! What a watched formula says of itself is true, also where levels are skipped or propagation comes
late. `Watched.Sound` holds after every call that is not made below the current level; the queue and
the watches play no part in it. -/

namespace Dpll

open Backtrackable

namespace Watched

variable {n : Nat} {cs : List (List (BoundedLiteral n))} {f g : Watched n cs.length}
  {D D' : Timeline n} {c k : Level} {l x : BoundedLiteral n} {i : Fin cs.length} {ms : Moves n}

/-- Nothing false is on the books at level `c`, and the true literals follow from the decisions `D`
of their own levels and those below. -/
structure Sound (cs : List (List (BoundedLiteral n))) (D : Timeline n) (c : Level)
    (f : Watched n cs.length) : Prop where
  placed : Placed f
  logged : Logged f
  timely : Timely f c
  body : ∀ i, f.body i = (cs.get i).eraseDups
  empty : f.hasEmptyClause = true ↔ [] ∈ cs
  conflict : f.conflict = true → ∃ d ∈ cs, Trail.Falsifies f.trail d
  implied : ∀ e ∈ f.timeline, UnitClosure cs (· ∈ D.upTo e.1) e.2

namespace Sound

theorem ofClauses : Sound cs [] 0 (ofClauses cs) where
  placed := placed_ofClauses
  logged := logged_ofClauses
  timely := timely_ofClauses
  body := body_ofClauses
  empty := hasEmptyClause_ofClauses
  conflict h := absurd (conflict_ofClauses.symm.trans h) (by simp)
  implied := by simp [timeline_ofClauses]

theorem mem_trail (H : Sound cs D c f) : f.isTrue l = true ↔ l ∈ f.trail := H.timely.isTrue l

theorem closure (H : Sound cs D c f) (hl : l ∈ f.trail) : UnitClosure cs (· ∈ D.upTo c) l := by
  rw [← literals_timeline, Timeline.mem_literals] at hl
  obtain ⟨j, hj⟩ := hl
  refine (H.implied _ hj).mono fun x hx => ?_
  obtain ⟨i, hi, hmem⟩ := Timeline.mem_upTo.mp hx
  exact Timeline.mem_upTo.mpr ⟨i, Nat.le_trans hi (H.timely.ordered.le _ hj), hmem⟩

theorem mono (H : Sound cs D c f) (hck : c ≤ k) : Sound cs D k f :=
  { H with timely := H.timely.mono hck }

theorem maintains (H : Sound cs D k f) (hm : Maintains x k f g) (hp : Placed g) (hl : Logged g) :
    Sound cs D k g where
  placed := hp
  logged := hl
  timely := H.timely.maintains hm
  body i := (hm.body i).trans (H.body i)
  empty := hm.hasEmptyClause ▸ H.empty
  conflict h := hm.trail ▸ H.conflict (hm.conflict ▸ h)
  implied := hm.timeline ▸ H.implied

theorem retains (H : Sound cs D k f) (hr : Retains f g) (hl : Logged g)
    (hc : g.conflict = true → ∃ d ∈ cs, Trail.Falsifies f.trail d) : Sound cs D k g where
  placed := hr.placed H.placed
  logged := hl
  timely := hr.timely H.timely
  body i := (hr.body i).trans (H.body i)
  empty := hr.hasEmptyClause ▸ H.empty
  conflict := hr.trail ▸ hc
  implied := hr.timeline ▸ H.implied

/-- A literal may be made true at level `k` if it follows from the decisions up to that level. -/
theorem fixes (H : Sound cs D c f) (hck : c ≤ k) (ho : Trail.Open f.trail l) (hD : D ⊆ D')
    (hl : UnitClosure cs (· ∈ D'.upTo k) l) :
    Sound cs D' k (f.assign l k) ∧ (f.assign l k).timeline = (k, l) :: f.timeline := by
  have A := assign_spec H.placed H.logged H.timely hck ho
  have htime := A.maintains.timeline.trans (timeline_fix ho.1)
  refine ⟨?_, htime⟩
  refine ⟨A.placed, A.logged, A.timely, fun i => (A.maintains.body i).trans (H.body i), ?_, ?_, ?_⟩
  · rw [A.maintains.hasEmptyClause]
    exact H.empty
  · rw [A.maintains.conflict, A.maintains.trail]
    intro h
    obtain ⟨d, hd, hf⟩ := H.conflict h
    exact ⟨d, hd, hf.mono (List.subset_cons_self _ _)⟩
  · rw [htime]
    intro e he
    rcases List.mem_cons.mp he with rfl | he
    · exact hl
    · refine (H.implied e he).mono fun x hx => ?_
      obtain ⟨j, hj, hmem⟩ := Timeline.mem_upTo.mp hx
      exact Timeline.mem_upTo.mpr ⟨j, hj, hD hmem⟩

theorem assign (H : Sound cs D c f) (hck : c ≤ k) (ho : Trail.Open f.trail l) :
    Sound cs ((k, l) :: D) k (f.assign l k) ∧ (f.assign l k).timeline = (k, l) :: f.timeline :=
  H.fixes hck ho (List.subset_cons_self _ _) <|
    .base (Timeline.mem_upTo.mpr ⟨k, Nat.le_refl k, List.mem_cons_self⟩)

/-- Looking at a clause forces at most its last open literal. -/
theorem examine (H : Sound cs D k f) : Sound cs D k (f.examine i k) ∧
    ∃ new : Trail n, (f.examine i k).timeline = new.map (k, ·) ++ f.timeline := by
  have hE := examine_cases f i k
  generalize f.examine i k = g at hE ⊢
  cases hE with
  | known => exact ⟨H, [], rfl⟩
  | satisfied hs =>
    obtain ⟨y, hy⟩ := hs
    have hm : Maintains y k f (f.markSatisfied i k) := .markSatisfied ⟨y, hy⟩
    exact ⟨H.maintains hm H.placed.markSatisfied H.logged.markSatisfied, [], hm.timeline⟩
  | @falsified journal hall =>
    have hfalse : Trail.Falsifies f.trail (cs.get i) := fun x hx =>
      H.mem_trail.mp (hall x (H.body i ▸ List.mem_eraseDups.mpr hx))
    refine ⟨H.retains retains_report H.logged.report fun _ => ?_, [], rfl⟩
    exact ⟨cs.get i, List.get_mem cs i, hfalse⟩
  | @forced l hl ho hrest =>
    have H' : Sound cs D k { f with propagationSteps := f.propagationSteps + 1 } :=
      H.retains retains_report H.logged.report H.conflict
    have hmem : l ∈ cs.get i := List.mem_eraseDups.mp (H.body i ▸ hl)
    -- the other literals are false, and what made them so follows from the decisions
    have hforced : UnitClosure cs (· ∈ D.upTo k) l := by
      refine .unit (List.get_mem cs i) hmem fun x hx hxl => ?_
      exact H.closure (H.mem_trail.mp (hrest x (H.body i ▸ List.mem_eraseDups.mpr hx) hxl))
    obtain ⟨A, htime⟩ := H'.fixes (Nat.le_refl k) (H.timely.isOpen_iff.mp ho)
      (List.Subset.refl D) hforced
    have hm := maintains_markSatisfied_assign (x := l) (k := k) H'.placed H'.logged hl
    exact ⟨A.maintains hm A.placed.markSatisfied A.logged.markSatisfied, [l], hm.timeline.trans htime⟩
  | @several a b rest journal =>
    exact ⟨H.retains retains_report H.logged.report H.conflict, [], rfl⟩

theorem unitPropagate (H : Sound cs D c f) (hck : c ≤ k) : Sound cs D k (f.unitPropagate k) ∧
    ∃ new : Trail n, (f.unitPropagate k).timeline = new.map (k, ·) ++ f.timeline := by
  have hstep (g i q) (hg : Sound cs D k g ∧ ∃ new : Trail n, g.timeline = new.map (k, ·) ++ f.timeline)
      (_ : g.isUnsatisfiable = false) (hpop : g.queue.pop? = some (i, q)) :
      Sound cs D k ((g.dequeue i q).examine i k) ∧
        ∃ new : Trail n, ((g.dequeue i q).examine i k).timeline = new.map (k, ·) ++ f.timeline := by
    obtain ⟨hg, new, htime⟩ := hg
    have hret : Retains g (g.dequeue i q) := retains_dequeue
    obtain ⟨hg', new', htime'⟩ :=
      (hg.retains hret (hg.logged.dequeue hpop) hg.conflict).examine (i := i)
    refine ⟨hg', new' ++ new, ?_⟩
    rw [htime', hret.timeline, htime, List.map_append, List.append_assoc]
  obtain ⟨g, ⟨hg, new, htime⟩, hend⟩ := unitPropagate_induction ⟨H.mono hck, [], rfl⟩ hstep
  rcases hend with ⟨-, heq⟩ | ⟨-, -, heq⟩
  · have hret : Retains g g.clearQueue := retains_clearQueue
    rw [heq]
    exact ⟨hg.retains hret hg.logged.clearQueue hg.conflict, new, hret.timeline.trans htime⟩
  · rw [heq]
    exact ⟨hg, new, htime⟩

theorem backtrack (H : Sound cs D c f) : Sound cs (D.filter (·.1 ≤ k)) (min c k) (f.backtrack k) where
  placed := H.placed.backtrack
  logged := H.logged.backtrack
  timely := H.timely.backtrack
  body i := body_backtrack.trans (H.body i)
  empty := hasEmptyClause_backtrack (f := f) ▸ H.empty
  conflict h := absurd (conflict_backtrack.symm.trans h) (by simp)
  implied e he := by
    rw [H.timely.timeline_backtrack, List.mem_filter, decide_eq_true_eq] at he
    rw [Timeline.upTo_filter, Nat.min_eq_left he.2]
    exact H.implied e he.1

/-- Calls at levels that never go down keep a formula sound, and its timeline is that of the literals
in force. -/
theorem after (h : ms.Rising (Watched.ofClauses cs)) :
    Sound cs ms.decisions ms.level (ms.after (Watched.ofClauses cs)) ∧
      (ms.after (Watched.ofClauses cs)).timeline = ms.history (Watched.ofClauses cs) := by
  induction h with
  | nil => exact ⟨ofClauses, timeline_ofClauses⟩
  | @assign ms k l _ hk hl ih =>
    obtain ⟨H, hE⟩ := ih
    have ho : Trail.Open (ms.after (Watched.ofClauses cs)).trail l := Trail.open_reverse.mp hl
    obtain ⟨hg, htime⟩ := H.assign hk ho
    exact ⟨hg, htime.trans (congrArg _ hE)⟩
  | @propagate ms k _ hk ih =>
    obtain ⟨H, hE⟩ := ih
    obtain ⟨hg, new, htime⟩ := H.unitPropagate hk
    have htrail := Propagates.trail_eq htime
    have hcons := hg.timely.consistent
    rw [htrail] at hcons
    refine ⟨hg, htime.trans ?_⟩
    rw [Moves.history_propagate hcons rfl (congrArg List.reverse htrail), hE]
  | @undo ms k _ ih =>
    obtain ⟨H, hE⟩ := ih
    exact ⟨H.backtrack, H.timely.timeline_backtrack.trans (congrArg _ hE)⟩

theorem satisfies_of_known (H : Sound cs D c f) (hi : f.Known i) : Trail.Satisfies f.trail (cs.get i) :=
  Trail.satisfies_eraseDups.mp (H.body i ▸ H.timely.satisfies_of_known H.logged hi)

theorem satisfies (H : Sound cs D c f) (hs : f.isSatisfied = true) {d : List (BoundedLiteral n)}
    (hd : d ∈ cs) : Trail.Satisfies f.trail d := by
  obtain ⟨i, hi, rfl⟩ := List.mem_iff_getElem.mp hd
  exact H.satisfies_of_known (H.logged.isSatisfied_iff.mp hs ⟨i, hi⟩)

theorem exists_falsified (H : Sound cs D c f) (hu : f.isUnsatisfiable = true) :
    ∃ d ∈ cs, Trail.Falsifies f.trail d := by
  rcases Bool.or_eq_true_iff.mp hu with he | hc
  · exact ⟨[], H.empty.mp he, by simp [Trail.Falsifies]⟩
  · exact H.conflict hc

theorem liveClauses_eq (H : Sound cs D c f) : f.liveClauses =
    ((List.finRange cs.length).filter fun i => !(f.clauses.get i).knownSatisfied).map
      fun i => (cs.get i).eraseDups.filter fun l => Trail.Open f.trail l := by
  rw [Watched.liveClauses_eq]
  apply List.map_congr_left
  intro i _
  rw [H.body]
  apply List.filter_congr
  intro l _
  rw [Bool.eq_iff_iff, H.timely.isOpen_iff, decide_eq_true_eq]

theorem open_of_mem_liveClauses (H : Sound cs D c f) {d : List (BoundedLiteral n)}
    (hd : d ∈ f.liveClauses) (hl : l ∈ d) : Trail.Open f.trail l := by
  rw [H.liveClauses_eq] at hd
  obtain ⟨i, -, rfl⟩ := List.mem_map.mp hd
  exact of_decide_eq_true (List.mem_filter.mp hl).2

end Sound

/-- Whatever a watched formula says of its clauses is true of the literals in force, it shows every
clause that has no true literal, and no literal is in force that does not follow from the clauses and
the decisions up to its level. -/
theorem truthful (h : ms.Rising (ofClauses cs)) :
    let f := ms.after (ofClauses cs)
    let A := (ms.history (ofClauses cs)).literals
    A.Consistent ∧ assignment f = A.reverse ∧
      (isSatisfied f = true → ∀ d ∈ cs, A.Satisfies d) ∧
      (isUnsatisfiable f = true → ∃ d ∈ cs, A.Falsifies d) ∧
      ¬(isSatisfied f = true ∧ isUnsatisfiable f = true) ∧
      (∃ is : List (Fin cs.length), is.Pairwise (· < ·) ∧ (∀ i, ¬A.Satisfies (cs.get i) → i ∈ is) ∧
        liveClauses f = is.map fun i => (cs.get i).eraseDups.filter fun l => A.Open l) ∧
      ∀ e ∈ ms.history (ofClauses cs), ∀ v, Models cs v →
        (∀ d ∈ ms.decisions.upTo e.1, d.Holds v) → e.2.Holds v := by
  obtain ⟨H, hE⟩ := Sound.after h
  dsimp only
  rw [← hE, literals_timeline]
  refine ⟨H.timely.consistent, rfl, fun hs d hd => H.satisfies hs hd, H.exists_falsified, ?_,
    ⟨_, ?_, ?_, H.liveClauses_eq⟩, fun e he v hv hD => (H.implied e he).holds hv hD⟩
  · rintro ⟨hs, hu⟩
    obtain ⟨d, hd, hf⟩ := H.exists_falsified hu
    exact H.timely.consistent.not_satisfies hf (H.satisfies hs hd)
  · exact (List.pairwise_lt_finRange _).filter _
  · intro i hi
    refine List.mem_filter.mpr ⟨List.mem_finRange i, ?_⟩
    rw [Bool.not_eq_true', Bool.eq_false_iff]
    exact fun hk => hi (H.satisfies_of_known hk)

/-- A clause is found satisfied by a literal that was assigned after another one was undone. -/
theorem truthful_two_literals :
    let cs : List (List (BoundedLiteral 2)) := [[⟨⟨1⟩, by decide⟩, ⟨⟨2⟩, by decide⟩]]
    let ms : Moves 2 := [.assign ⟨⟨2⟩, by decide⟩ 1, .undo 0, .assign ⟨⟨0⟩, by decide⟩ 1]
    ms.Rising (ofClauses cs) ∧ isSatisfied (ms.after (ofClauses cs)) = true ∧
      (∀ d ∈ cs, (ms.history (ofClauses cs)).literals.Satisfies d) ∧
      isUnsatisfiable (ms.after (ofClauses cs)) = false := by
  intro cs ms
  have h : ms.Rising (ofClauses cs) :=
    .assign (.undo (.assign .nil (by decide) (by decide))) (by decide) (by decide +kernel)
  obtain ⟨-, -, hsatisfied, -, hnot, -⟩ := truthful h
  have hs : isSatisfied (ms.after (ofClauses cs)) = true := by decide +kernel
  exact ⟨h, hs, hsatisfied hs, Bool.eq_false_iff.mpr fun hu => hnot ⟨hs, hu⟩⟩

end Watched

end Dpll
