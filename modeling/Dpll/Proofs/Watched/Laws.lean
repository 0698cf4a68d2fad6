import Dpll.Proofs.Search.Laws
import Dpll.Proofs.Watched.Construction

/-! The watched formula keeps the laws of a run of decisions, whatever its agenda: nothing is due on
the trail of a level that was left (`Watched.Stands`), so nothing is due when propagation comes back to
it with an empty queue. -/

namespace Dpll

variable {n m : Nat} {bodies : Fin m → List (BoundedLiteral n)} {S : Agenda bodies}
  {cs : List (List (BoundedLiteral n))}

/-- The agenda answers for the clauses `cs`. -/
structure Agenda.Enforces (S : Agenda bodies) (cs : List (List (BoundedLiteral n))) : Prop where
  covered : S.CoveredBy cs
  clauses : ∀ c ∈ cs, ∃ i, S.Seen i ∧ ∀ x, x ∈ c ↔ x ∈ bodies i
  due : ∀ {A : Trail n} {i}, A.Consistent → S.Seen i → A.Falsifies (bodies i) → S.Due A i

namespace Watched

variable {f g : Watched n m} {c k : Level} {i : Fin m} {A B : Trail n} {As Bs : List (Trail n)}
  {l x : BoundedLiteral n} {hand : List (Fin m)}

theorem Heeds.backtrack {w : Watch} {e : Level × BoundedLiteral n} (H : f.Heeds w e)
    (ht : Timely f c) (hk : e.1 ≤ k) : (f.backtrack k).Heeds w e := by
  intro i hlen
  rw [body_backtrack] at hlen ⊢
  obtain ⟨htrue, hfalse⟩ := H i hlen
  have hlog (h : ∃ s ≤ e.1, (i, s) ∈ f.satisfied) :
      ∃ s ≤ e.1, (i, s) ∈ (f.backtrack k).satisfied := by
    obtain ⟨s, hs, hmem⟩ := h
    rw [ht.satisfied_backtrack]
    exact ⟨s, hs, List.mem_filter.mpr ⟨hmem, decide_eq_true (Nat.le_trans hs hk)⟩⟩
  rw [watched_backtrack, watched_backtrack, ht.timeline_backtrack, Timeline.upTo_filter,
    Nat.min_eq_left hk]
  exact ⟨fun hw => hlog (htrue hw), fun hw => (hfalse hw).imp_left hlog⟩

theorem Attends.backtrack (ht : Timely f c) (H : f.Attends (f.timeline.filter (·.1 ≤ k))) :
    (f.backtrack k).Attends (f.backtrack k).timeline := by
  rw [ht.timeline_backtrack]
  intro e he u
  exact (H e he u).backtrack ht (of_decide_eq_true (List.mem_filter.mp he).2)

theorem Attends.mono {E F : Timeline n} (H : f.Attends E) (hFE : F ⊆ E) : f.Attends F :=
  fun e he => H e (hFE he)

theorem isUnsatisfiable_backtrack : (f.backtrack k).isUnsatisfiable = f.hasEmptyClause := by
  rw [isUnsatisfiable, hasEmptyClause_backtrack, conflict_backtrack, Bool.or_false]

namespace Tracks

/-- A formula with nothing to do is in order at every higher level. -/
theorem lift (H : Tracks S k [] f) (hq : S.whole → f.queue.toList = []) (hkc : k ≤ c) :
    Tracks S c [] f := by
  refine { H with timely := H.timely.mono hkc, prompt := fun hu hw i hi => .inr ?_ }
  rcases H.prompt hu hw i hi with ⟨hqueued | hmem, _⟩ | hlog
  · rw [H.logged.queued, hq hw] at hqueued
    cases hqueued
  · cases hmem
  · exact hlog

/-- Undoing returns to a level on which nothing is due. -/
theorem backtrack (H : Tracks S c [] f) (hkc : k ≤ c)
    (hquiet : f.hasEmptyClause = false → ∀ i, ¬S.Due (f.timeline.upTo k) i)
    (hlogged : f.hasEmptyClause = false → S.whole → ∀ i, (bodies i).length = 1 →
      (i, 0) ∈ f.satisfied) : Tracks S k [] (f.backtrack k) where
  placed := H.placed.backtrack
  logged := H.logged.backtrack
  timely := by
    have ht := H.timely.backtrack (k := k)
    rwa [Nat.min_eq_right hkc] at ht
  body i := body_backtrack.trans (H.body i)
  empty := hasEmptyClause_backtrack (f := f) ▸ H.empty
  root := by
    rw [H.timely.timeline_backtrack, Timeline.upTo_filter, Nat.min_eq_left (Nat.zero_le k)]
    exact H.root
  seen i hi := H.seen i (hi.imp_left queued_backtrack.mp)
  attends he := .backtrack H.timely <| by
    rw [hasEmptyClause_backtrack] at he
    exact (H.attends he).mono (List.filter_subset_self _)
  due hu i hi := by
    rw [isUnsatisfiable_backtrack] at hu
    rw [← literals_timeline, H.timely.timeline_backtrack] at hi
    exact absurd hi (hquiet hu i)
  prompt hu hw i hi := by
    rw [isUnsatisfiable_backtrack] at hu
    rw [H.timely.satisfied_backtrack]
    exact .inr (List.mem_filter.mpr ⟨hlogged hu hw i hi, by simp⟩)

theorem satisfies_of_known (H : Tracks S k hand f) (hi : f.Known i) :
    Trail.Satisfies f.trail (bodies i) := H.body i ▸ H.timely.satisfies_of_known H.logged hi

/-- A satisfied clause without an open literal watches a true one, or has drawn the consequences of
the false ones it watches. -/
theorem known_of_not_open (H : Tracks S k hand f) (he : f.hasEmptyClause = false)
    (hlen : 1 < (bodies i).length) (hs : Trail.Satisfies f.trail (bodies i))
    (hno : ∀ x ∈ bodies i, ¬Trail.Open f.trail x) : f.Known i := by
  have hlog {a : Level} (h : ∃ s ≤ a, (i, s) ∈ f.satisfied) : f.Known i := by
    obtain ⟨s, _, hmem⟩ := h
    exact (H.logged.known i).mpr (List.mem_map.mpr ⟨(i, s), hmem, rfl⟩)
  rw [← H.body i] at hlen hs hno
  -- a watched literal is false unless the clause is known to be satisfied
  have hfalse (w : Watch) (x) (hx : x ∈ f.body i) (hw : f.watched w i = some x) :
      f.Known i ∨ ∀ z ∈ f.body i, f.watched w.other i = some z ∨ -z ∈ f.trail := by
    by_cases htrue : x ∈ f.trail
    · rw [← literals_timeline, Timeline.mem_literals] at htrue
      obtain ⟨a, ha⟩ := htrue
      exact .inl (hlog ((H.attends he _ ha w i hlen).1 hw))
    · have hneg : -x ∈ f.trail := by
        by_contra hneg
        exact hno x hx ⟨htrue, hneg⟩
      rw [← literals_timeline, Timeline.mem_literals] at hneg
      obtain ⟨a, ha⟩ := hneg
      refine ((H.attends he _ ha w i hlen).2 (by rw [BoundedLiteral.neg_neg, hw])).imp hlog ?_
      intro hrest z hz
      exact (hrest z hz).imp_right fun h => literals_timeline (f := f) ▸ Timeline.upTo_subset h
  obtain ⟨x, hx, hxw⟩ := H.placed.exists_watched hlen .first
  obtain ⟨y, hy, hyw⟩ := H.placed.exists_watched hlen .second
  rcases hfalse .first x hx hxw with hk | hrest
  · exact hk
  rcases hfalse .second y hy hyw with hk | hrest'
  · exact hk
  refine absurd hs (H.timely.consistent.not_satisfies fun z hz => ?_)
  rcases hrest z hz with hzy | hneg
  · rcases hrest' z hz with hzx | hneg
    · exact absurd (Option.some.inj (hxw.symm.trans hzx)) (H.placed.watched_ne hlen hxw hzy)
    · exact hneg
  · exact hneg

end Tracks

/-- The formula has the trail `A` on top of the trails `As`, on which nothing is due. -/
structure Stands (S : Agenda bodies) (A : Trail n) (As : List (Trail n)) (f : Watched n m) :
    Prop where
  tracks : Tracks S As.length [] f
  trail : f.trail = A
  layers : f.timeline.layers As.length = As
  quiet : ∀ B ∈ As, ∀ i, ¬S.Due B i
  nonempty : As ≠ [] → f.hasEmptyClause = false
  prompt : As ≠ [] → S.whole → ∀ i, (bodies i).length = 1 → (i, 0) ∈ f.satisfied

/-- Propagation has ended and found no conflict. -/
structure Rests (S : Agenda bodies) (A : Trail n) (As : List (Trail n)) (f : Watched n m) :
    Prop where
  stands : Stands S A As f
  queue : f.queue.toList = []
  not_unsatisfiable : f.isUnsatisfiable = false

/-- Propagation has ended with an empty or a falsified clause. -/
structure Fails (S : Agenda bodies) (As : List (Trail n)) (f : Watched n m) : Prop where
  stands : ∃ A, Stands S A As f
  queue : f.queue.toList = []
  unsatisfiable : f.isUnsatisfiable = true
  explains : Tracks.Explains S f

namespace Stands

theorem consistent (H : Stands S A As f) : A.Consistent := H.trail ▸ H.tracks.timely.consistent

theorem upTo_length (H : Stands S A As f) : f.timeline.upTo As.length = A :=
  (H.tracks.timely.upTo_eq_trail (Nat.le_refl _)).trans H.trail

theorem assume (H : Stands S B [] f) (hc : f.conflict = false) (hl : B.Open l) :
    Stands S (l :: B) [] (f.assign l 0) ∧ (f.assign l 0).conflict = false := by
  obtain ⟨hg, hm⟩ := H.tracks.assign hc (H.trail ▸ hl)
  refine ⟨⟨hg, ?_, rfl, by simp, by simp, by simp⟩, hm.conflict.trans hc⟩
  exact hm.trail.trans (congrArg (l :: ·) H.trail)

theorem propagate (H : Stands S B As f) (hc : f.conflict = false) (hcs : S.CoveredBy cs) :
    ∃ new, Stands S (new ++ B) As (f.unitPropagate As.length) ∧
      (f.unitPropagate As.length).queue.toList = [] ∧
      (f.unitPropagate As.length).propagationSteps = f.propagationSteps + new.length ∧
      (∀ l ∈ new, UnitClosure cs (· ∈ B) l) ∧ Tracks.Explains S (f.unitPropagate As.length) := by
  obtain ⟨hg, hqueue, hprop, hex⟩ := H.tracks.unitPropagate hc hcs
  obtain ⟨new, htime, hsteps, hnew⟩ := hprop.forced
  have htrail := Propagates.trail_eq htime
  rw [H.trail] at htrail hnew
  have hlayers : (f.unitPropagate As.length).timeline.layers As.length = As := by
    rw [htime, Timeline.layers_append_map (Nat.le_refl _), H.layers]
  refine ⟨new, ⟨hg, htrail, hlayers, H.quiet, fun hne => ?_, fun hne hw i hi => ?_⟩, hqueue, hsteps,
    hnew, hex⟩
  · exact hprop.hasEmptyClause.trans (H.nonempty hne)
  · exact hprop.satisfied (H.prompt hne hw i hi)

/-- Undoing returns to a level that was left, or stays at this one if nothing is due on it. -/
theorem backtrack (H : Stands S A (Bs ++ B :: As) f) (hq : f.queue.toList = []) :
    Rests S B As (f.backtrack As.length) := by
  have hne : Bs ++ B :: As ≠ [] := by simp
  have he := H.nonempty hne
  obtain ⟨hlt, hB, hAs⟩ := Timeline.layers_eq_append H.layers
  have htracks : Tracks S As.length [] (f.backtrack As.length) :=
    H.tracks.backtrack (Nat.le_of_lt hlt)
      (fun _ => hB ▸ H.quiet B (by simp)) fun _ => H.prompt hne
  have htime := H.tracks.timely.timeline_backtrack (k := As.length)
  refine ⟨⟨htracks, ?_, ?_, fun C hC => H.quiet C (by simp [hC]), fun _ => ?_, fun _ hw i hi => ?_⟩,
    ?_, isUnsatisfiable_backtrack.trans he⟩
  · rw [hB, ← literals_timeline, htime, Timeline.upTo]
  · rw [htime, Timeline.layers_filter (Nat.le_succ _), ← hAs]
  · exact hasEmptyClause_backtrack.trans he
  · rw [H.tracks.timely.satisfied_backtrack]
    exact List.mem_filter.mpr ⟨H.prompt hne hw i hi, by simp⟩
  · rw [queue_backtrack]
    exact hq

end Stands

namespace Rests

theorem quiet (H : Rests S A As f) : ∀ i, ¬S.Due A i := by
  intro i hi
  rcases H.stands.tracks.due H.not_unsatisfiable i (H.stands.trail ▸ hi) with hq | hmem
  · rw [H.stands.tracks.logged.queued, H.queue] at hq
    cases hq
  · cases hmem

theorem hasEmptyClause (H : Rests S A As f) : f.hasEmptyClause = false :=
  (Bool.or_eq_false_iff.mp H.not_unsatisfiable).1

theorem conflict (H : Rests S A As f) : f.conflict = false :=
  (Bool.or_eq_false_iff.mp H.not_unsatisfiable).2

theorem prompt (H : Rests S A As f) (hw : S.whole) (hi : (bodies i).length = 1) :
    (i, 0) ∈ f.satisfied := by
  rcases H.stands.tracks.prompt H.not_unsatisfiable hw i hi with ⟨hq | hmem, _⟩ | hlog
  · rw [H.stands.tracks.logged.queued, H.queue] at hq
    cases hq
  · cases hmem
  · exact hlog

theorem decide (H : Rests S A As f) (hl : A.Open l) :
    Stands S (l :: A) (A :: As) (f.assign l (As.length + 1)) ∧
      (f.assign l (As.length + 1)).conflict = false := by
  obtain ⟨hg, hm⟩ := (H.stands.tracks.lift (fun _ => H.queue) (Nat.le_succ As.length)).assign
    H.conflict (H.stands.trail ▸ hl)
  have htime := hm.timeline.trans (timeline_fix (H.stands.trail ▸ hl.1))
  refine ⟨⟨hg, ?_, ?_, ?_, fun _ => ?_, fun _ hw i hi => ?_⟩, hm.conflict.trans H.conflict⟩
  · exact hm.trail.trans (congrArg (l :: ·) H.stands.trail)
  · rw [htime, List.length_cons, Timeline.layers_cons (Nat.le_refl _), Timeline.layers,
      H.stands.upTo_length, H.stands.layers]
  · intro B hB
    rcases List.mem_cons.mp hB with rfl | hB
    · exact H.quiet
    · exact H.stands.quiet B hB
  · exact hm.hasEmptyClause.trans H.hasEmptyClause
  · exact hm.mem_satisfied (H.prompt hw hi)

theorem stay (H : Rests S A As f) : Rests S A As (f.backtrack As.length) := by
  have htracks : Tracks S As.length [] (f.backtrack As.length) :=
    H.stands.tracks.backtrack (Nat.le_refl _) (fun _ => H.stands.upTo_length ▸ H.quiet)
      fun _ hw i => H.prompt hw
  have htime := H.stands.tracks.timely.timeline_backtrack (k := As.length)
  rw [H.stands.tracks.timely.ordered.filter_eq_self (Nat.le_refl _)] at htime
  refine ⟨⟨htracks, ?_, htime ▸ H.stands.layers, H.stands.quiet, fun _ => ?_, fun _ hw i hi => ?_⟩, ?_,
    isUnsatisfiable_backtrack.trans H.hasEmptyClause⟩
  · rw [← literals_timeline, htime, literals_timeline, H.stands.trail]
  · exact hasEmptyClause_backtrack.trans H.hasEmptyClause
  · rw [H.stands.tracks.timely.satisfied_backtrack]
    exact List.mem_filter.mpr ⟨H.prompt hw hi, by simp⟩
  · rw [queue_backtrack]
    exact H.queue

/-- A clause that may be met in the queue is satisfied once none of its literals is open. -/
theorem satisfies_of_not_open (H : Rests S A As f) (hS : S.Enforces cs) (hi : S.Seen i)
    (hno : ∀ x ∈ bodies i, ¬A.Open x) : A.Satisfies (bodies i) := by
  by_contra hs
  refine H.quiet i (hS.due H.stands.consistent hi fun x hx => ?_)
  by_contra hneg
  exact hno x hx ⟨fun htrue => hs ⟨x, hx, htrue⟩, hneg⟩

end Rests

/-- In a formula that rests without a live literal, every clause is satisfied. -/
theorem Rests.leaf (H : Rests S A As f) (hS : S.Enforces cs) (hs : f.isSatisfied = false)
    (hlive : ∀ d ∈ f.liveClauses, d = []) : ¬S.whole ∧ ∀ d ∈ cs, A.Satisfies d := by
  have hsat {i} (hk : f.Known i) : A.Satisfies (bodies i) :=
    H.stands.trail ▸ H.stands.tracks.satisfies_of_known hk
  have hno {i} (hk : ¬f.Known i) : ∀ x ∈ bodies i, ¬A.Open x := by
    intro x hx ho
    have hnil := hlive _ (mem_liveClauses.mpr ⟨i, hk, rfl⟩)
    rw [List.filter_eq_nil_iff] at hnil
    refine hnil x (H.stands.tracks.body i ▸ hx) ?_
    exact H.stands.tracks.isOpen_iff.mpr (H.stands.trail ▸ ho)
  constructor
  · intro hw
    rw [Bool.eq_false_iff, ne_eq, H.stands.tracks.logged.isSatisfied_iff, not_forall] at hs
    obtain ⟨i, hk⟩ := hs
    have hbody : A.Satisfies (bodies i) := by
      rcases S.settles hw (H.quiet i) with hs | ⟨a, ha, _, _, _, hopen, _⟩
      · exact hs
      · exact absurd hopen (hno hk a ha)
    have hpos : 0 < (bodies i).length := by
      obtain ⟨x, hx, _⟩ := hbody
      exact List.length_pos_of_mem hx
    by_cases hlen : 1 < (bodies i).length
    · exact hk (H.stands.tracks.known_of_not_open H.hasEmptyClause hlen (H.stands.trail ▸ hbody)
        (H.stands.trail ▸ hno hk))
    · have hlog := H.prompt hw (i := i) (by lia)
      exact hk ((H.stands.tracks.logged.known i).mpr (List.mem_map.mpr ⟨(i, 0), hlog, rfl⟩))
  · intro d hd
    obtain ⟨i, hi, hmem⟩ := hS.clauses d hd
    obtain ⟨x, hx, htrue⟩ : A.Satisfies (bodies i) := by
      by_cases hk : f.Known i
      · exact hsat hk
      · exact H.satisfies_of_not_open hS hi (hno hk)
    exact ⟨x, (hmem x).mpr hx, htrue⟩

theorem Fails.not_satisfied (H : Fails S As f) : f.isSatisfied = false := by
  obtain ⟨A, hA⟩ := H.stands
  rw [Bool.eq_false_iff, ne_eq, hA.tracks.logged.isSatisfied_iff]
  intro hall
  rcases Bool.or_eq_true_iff.mp H.unsatisfiable with he | hc
  · obtain ⟨i, hi⟩ := hA.tracks.empty.mp he
    obtain ⟨x, hx, _⟩ := hA.tracks.satisfies_of_known (hall i)
    rw [hi] at hx
    cases hx
  · obtain ⟨i, _, hfalse⟩ := H.explains hc
    exact hA.tracks.timely.consistent.not_satisfies hfalse (hA.tracks.satisfies_of_known (hall i))

/-- The laws of the watched formula, with an agenda that answers for the clauses. -/
def laws (S : Agenda bodies) (hS : S.Enforces cs) : Laws (Watched n m) cs where
  Pending B As f := Stands S B As f ∧ f.conflict = false
  Settled := Rests S
  Failed := Fails S
  Stuck := ¬S.whole
  assume H hl := H.1.assume H.2 hl
  decide H hl := H.decide hl
  propagate := by
    rintro B As f ⟨H, hc⟩
    obtain ⟨new, hg, hqueue, hsteps, hnew, hex⟩ := H.propagate hc hS.covered
    cases hu : (f.unitPropagate As.length).isUnsatisfiable with
    | false => exact .inl ⟨new, ⟨hg, hqueue, hu⟩, hsteps, hnew⟩
    | true =>
      refine .inr ⟨⟨⟨_, hg⟩, hqueue, hu, hex⟩, ?_⟩
      obtain ⟨i, hi, hfalse⟩ : ∃ i, S.Seen i ∧ Trail.Falsifies (new ++ B) (bodies i) := by
        rcases Bool.or_eq_true_iff.mp hu with he | hconf
        · obtain ⟨i, hi⟩ := hg.tracks.empty.mp he
          exact ⟨i, S.seen_nil hi, by simp [Trail.Falsifies, hi]⟩
        · exact hg.trail ▸ hex hconf
      obtain ⟨d, hd, hmem⟩ := hS.covered i hi
      exact ⟨d, hd, fun l hl => Forces.closure ⟨new, rfl, hnew⟩ (-l) (hfalse l ((hmem l).mp hl))⟩
  rest H := ⟨H.stands, H.conflict⟩
  stay H := H.stay
  undo_settled H := H.stands.backtrack H.queue
  undo_failed := by
    intro B Bs As f H
    obtain ⟨A, hA⟩ := H.stands
    exact hA.backtrack H.queue
  consistent H := H.stands.consistent
  assignment_eq H := congrArg List.reverse H.stands.trail
  not_unsatisfiable H := H.not_unsatisfiable
  open_of_live := by
    intro A As f c l H hc hl
    obtain ⟨i, _, rfl⟩ := mem_liveClauses.mp hc
    have hopen := H.stands.tracks.isOpen_iff.mp (List.mem_filter.mp hl).2
    exact H.stands.trail ▸ hopen
  satisfies := by
    intro A As f H hs d hd
    obtain ⟨i, _, hmem⟩ := hS.clauses d hd
    have hk := H.stands.tracks.logged.isSatisfied_iff.mp hs i
    obtain ⟨x, hx, htrue⟩ := H.stands.trail ▸ H.stands.tracks.satisfies_of_known hk
    exact ⟨x, (hmem x).mpr hx, htrue⟩
  leaf H hs hlive := H.leaf hS hs hlive
  unsatisfiable H := H.unsatisfiable
  not_satisfied H := H.not_satisfied

end Watched

/-! ### The fresh formula -/

/-- The agenda of all clauses: one that is not settled is due. -/
def Agenda.unsettled (bodies : Fin m → List (BoundedLiteral n)) : Agenda bodies where
  Seen _ := True
  Due A i := ¬A.Settles (bodies i)
  root := []
  whole := True
  not_settles _ h := h
  of_cons := by
    intro A l i h
    by_contra! hcontra
    obtain ⟨hA, hl⟩ := hcontra
    by_cases hlen : 1 < (bodies i).length
    · exact h (hA.cons (hl hlen))
    · have hs := hA.satisfies (Nat.le_of_not_lt hlen)
      exact h (.inl (hs.mono (List.subset_cons_self _ _)))
  seen _ _ _ _ := trivial
  seen_nil _ := trivial
  settles _ h := not_not.mp h

namespace Watched

variable {n : Nat} (cs : List (List (BoundedLiteral n)))

theorem enforces_unsettled :
    (Agenda.unsettled fun i : Fin cs.length => (cs.get i).eraseDups).Enforces cs where
  covered i _ := ⟨cs.get i, List.get_mem cs i, fun _ => List.mem_eraseDups.symm⟩
  clauses d hd := by
    obtain ⟨i, hi, rfl⟩ := List.mem_iff_getElem.mp hd
    exact ⟨⟨i, hi⟩, trivial, fun _ => List.mem_eraseDups.symm⟩
  due hA _ hf := hA.not_settles hf

/-- The laws of the watched formula with all its clauses. -/
def freshLaws : Laws (Watched n cs.length) cs := laws _ (enforces_unsettled cs)

theorem settles_freshLaws : (freshLaws cs).Settles := by
  intro A As f H d hd
  obtain ⟨i, hi, rfl⟩ := List.mem_iff_getElem.mp hd
  exact Trail.settles_eraseDups.mp (not_not.mp (Rests.quiet H ⟨i, hi⟩))

theorem pending_ofClauses : (freshLaws cs).Pending [] [] (ofClauses cs) := by
  refine ⟨⟨?_, trail_ofClauses, rfl, by simp, by simp, by simp⟩, conflict_ofClauses⟩
  refine tracks_ofClauses _ (fun _ => rfl) rfl (fun _ _ => trivial) fun i hi => ?_
  by_contra hlen
  exact hi (Trail.settles_nil (nodup_eraseDups _) (Nat.lt_of_not_le hlen))

end Watched

end Dpll
