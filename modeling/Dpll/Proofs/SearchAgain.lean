import Dpll.Proofs.Solver

/-! Searching once more, after everything above level zero was undone. If propagation met no conflict
at level zero, nothing was lost. After such a conflict a watched formula no longer looks at its clauses
of one literal, nor at a clause that was falsified: the second search decides whether the clauses that
remain have a model with the literals that were kept (`search_again_iff`). -/

namespace Dpll

open Backtrackable

/-- The clauses that are still enforced after a conflict at level zero that kept the literals of `A`. -/
def Representation.remaining {n : Nat} (r : Representation) (cs : List (List (BoundedLiteral n)))
    (A : Trail n) : List (List (BoundedLiteral n)) :=
  match r with
  | .adjacencyList => cs
  | .watchedLiterals =>
    if [] ∈ cs then cs else cs.filter fun c => 1 < c.eraseDups.length ∧ ¬A.Falsifies c

variable {n m : Nat} {cs : List (List (BoundedLiteral n))} {A R T : Trail n} {As : List (Trail n)}
  {k : Level}

/-- The agenda of the clauses that two watches still guard: one that is falsified is due. -/
def Agenda.guarded (bodies : Fin m → List (BoundedLiteral n)) (T : Trail n)
    (hne : ∀ i, bodies i ≠ []) : Agenda bodies where
  Seen i := 1 < (bodies i).length ∧ ¬T.Falsifies (bodies i)
  Due A i := (1 < (bodies i).length ∧ ¬T.Falsifies (bodies i)) ∧ A.Falsifies (bodies i)
  root := T
  whole := False
  not_settles hA h := hA.not_settles h.2
  of_cons := by
    rintro A l i ⟨hi, hfalse⟩
    by_cases hl : -l ∈ bodies i
    · exact .inr ⟨hi.1, hl⟩
    · refine .inl ⟨hi, fun x hx => (List.mem_cons.mp (hfalse x hx)).resolve_left fun h => hl ?_⟩
      rwa [← h, BoundedLiteral.neg_neg]
  seen hTA hopen hx hlen := ⟨hlen, fun hfalse => hopen.2 (hTA (hfalse _ hx))⟩
  seen_nil h := absurd h (hne _)
  settles h := h.elim

namespace Watched

variable {bodies : Fin m → List (BoundedLiteral n)} {S S' : Agenda bodies} {f : Watched n m}

/-- A formula with an empty queue is in order for any agenda on which nothing is due. -/
theorem Tracks.refocus (H : Tracks S k [] f) (hq : f.queue.toList = [])
    (hroot : S'.root ⊆ f.timeline.upTo 0) (hdue : ∀ i, ¬S'.Due f.trail i) (hwhole : ¬S'.whole) :
    Tracks S' k [] f := by
  have hqueued (i) : ¬f.Queued i := by
    rw [H.logged.queued, hq]
    exact List.not_mem_nil
  exact { H with
    root := hroot
    seen := fun i hi => absurd (hi.resolve_right List.not_mem_nil) (hqueued i)
    due := fun _ i hi => absurd hi (hdue i)
    prompt := fun _ hw => absurd hw hwhole }

variable {f : Watched n cs.length}

theorem enforces_guarded (hne : ∀ i : Fin cs.length, (cs.get i).eraseDups ≠ []) (hcs : [] ∉ cs) :
    (Agenda.guarded (fun i : Fin cs.length => (cs.get i).eraseDups) T hne).Enforces
      (Representation.watchedLiterals.remaining cs T) := by
  have hmem {c} : c ∈ Representation.watchedLiterals.remaining cs T ↔
      c ∈ cs ∧ 1 < c.eraseDups.length ∧ ¬T.Falsifies c := by
    rw [Representation.remaining, if_neg hcs, List.mem_filter, decide_eq_true_eq]
  refine ⟨fun i hi => ⟨cs.get i, hmem.mpr ⟨List.get_mem cs i, hi.1, ?_⟩, ?_⟩, fun c hc => ?_, ?_⟩
  · exact mt Trail.falsifies_eraseDups.mpr hi.2
  · exact fun _ => List.mem_eraseDups.symm
  · obtain ⟨hc, hlen, hfalse⟩ := hmem.mp hc
    obtain ⟨i, hi, rfl⟩ := List.mem_iff_getElem.mp hc
    exact ⟨⟨i, hi⟩, ⟨hlen, mt Trail.falsifies_eraseDups.mp hfalse⟩, fun _ => List.mem_eraseDups.symm⟩
  · exact fun _ hi hfalse => ⟨hi, hfalse⟩

/-- After a conflict at level zero, the clauses that remain are searched next. -/
theorem exists_laws_backtrack (H : (freshLaws cs).Failed [] f) :
    Trail.Consistent f.trail ∧ (f.backtrack 0).trail = f.trail ∧ ∃ L : Laws (Watched n cs.length)
      (Representation.watchedLiterals.remaining cs f.trail), L.Pending f.trail [] (f.backtrack 0) := by
  obtain ⟨A, hA⟩ := H.stands
  have hordered : f.timeline.Ordered 0 := hA.tracks.timely.ordered
  have htime := hA.tracks.timely.timeline_backtrack (k := 0)
  rw [hordered.filter_eq_self (Nat.le_refl _)] at htime
  have htrail : (f.backtrack 0).trail = f.trail := by
    rw [← literals_timeline, htime, literals_timeline]
  have hempty : f.hasEmptyClause = true ↔ [] ∈ cs := hA.tracks.empty.trans nil_mem_iff.symm
  refine ⟨hA.tracks.timely.consistent, htrail, ?_⟩
  by_cases hcs : [] ∈ cs
  · have he := hempty.mpr hcs
    rw [Representation.remaining, if_pos hcs]
    refine ⟨freshLaws cs, ⟨?_, htrail, rfl, by simp, by simp, by simp⟩, conflict_backtrack⟩
    refine hA.tracks.backtrack (Nat.le_refl _) (fun h => ?_) fun h => ?_
    · exact absurd (he.symm.trans h) (by simp)
    · exact absurd (he.symm.trans h) (by simp)
  · have hne (i : Fin cs.length) : (cs.get i).eraseDups ≠ [] := by
      intro h
      exact hcs (hempty.mp (hA.tracks.empty.mpr ⟨i, h⟩))
    refine ⟨laws _ (enforces_guarded (T := f.trail) hne hcs), ⟨?_, htrail, rfl, by simp, by simp,
      by simp⟩, conflict_backtrack⟩
    have hroot : f.timeline.upTo 0 = f.trail := hA.tracks.timely.upTo_eq_trail (Nat.le_refl _)
    have hdue (i : Fin cs.length) : ¬(Agenda.guarded _ f.trail hne).Due f.trail i := fun h => h.1.2 h.2
    refine (hA.tracks.refocus H.queue (hroot ▸ List.Subset.refl _) hdue id).backtrack
      (Nat.le_refl _) (fun _ i => ?_) fun _ h => h.elim
    exact hroot.symm ▸ hdue i

end Watched

namespace Representation

variable {r : Representation}

theorem remaining_subset : r.remaining cs A ⊆ cs := by
  cases r with
  | adjacencyList => exact List.Subset.refl _
  | watchedLiterals =>
    rw [remaining]
    split
    · exact List.Subset.refl _
    · exact List.filter_subset_self _

theorem remaining_reverse : r.remaining cs A.reverse = r.remaining cs A := by
  cases r with
  | adjacencyList => rfl
  | watchedLiterals => simp only [remaining, Trail.falsifies_reverse]

/-- Where every clause is settled, the clauses that remain say as much as all of them. -/
theorem models_remaining_iff {v : Valuation} (hA : A.Consistent) (hs : ∀ c ∈ cs, A.Settles c)
    (hv : ∀ l ∈ A, l.Holds v) : Models (r.remaining cs A) v ↔ Models cs v := by
  refine ⟨fun h c hc => ?_, fun h c hc => h c (remaining_subset hc)⟩
  rcases hs c hc with ⟨l, hl, htrue⟩ | hopen
  · exact ⟨l, hl, hv l htrue⟩
  · refine h c ?_
    cases r with
    | adjacencyList => exact hc
    | watchedLiterals =>
      rw [remaining]
      split
      · exact hc
      · have hlen : 1 < c.eraseDups.length := by
          obtain ⟨a, ha, b, hb, hne, _⟩ := hopen
          exact one_lt_length (List.mem_eraseDups.mpr ha) (List.mem_eraseDups.mpr hb) hne
        have hfalse : ¬A.Falsifies c := fun h => hA.not_settles h (hs c hc)
        exact List.mem_filter.mpr ⟨hc, by simp [hlen, hfalse]⟩

end Representation

namespace Tracked

variable {r : Representation} {j : Journal (Call (BoundedLiteral n))}
  {t : Finished (Tracked n cs.length) Heuristic (BoundedLiteral n)}

/-- What is searched next keeps laws: those of all clauses on a trail forced from nothing, or those of
the clauses that remain after a conflict. -/
theorem exists_laws_backtrack (H : (freshLaws r cs).Verdict [] j t) :
    (∃ R, (freshLaws r cs).Settled R [] (backtrack t.formula 0) ∧ Forces cs [] R) ∨
    t.answer = false ∧ ∃ A : Trail n, A.Consistent ∧
      assignment (backtrack t.formula 0) = A.reverse ∧
      ∃ L : Laws (Tracked n cs.length) (r.remaining cs A), L.Pending A [] (backtrack t.formula 0) := by
  cases h : t.answer with
  | true =>
    obtain ⟨A, As, hset, hroot, -⟩ := H.accepted h
    obtain ⟨R, hR, hset⟩ := (freshLaws r cs).undo_all hset
    exact .inl ⟨R, hset, hroot R hR⟩
  | false =>
    obtain ⟨As, hfail, hroot, -⟩ := H.rejected h
    by_cases hnil : As = []
    · subst hnil
      refine .inr ⟨rfl, ?_⟩
      generalize t.formula = f at hfail
      cases r <;> cases f
      · obtain ⟨⟨A, hA⟩, _⟩ := hfail
        exact ⟨A, hA.consistent, congrArg List.reverse hA.stay.trail, freshLaws .adjacencyList cs,
          hA.stay⟩
      · exact hfail.elim
      · exact hfail.elim
      · rename_i f
        obtain ⟨hA, htrail, L, hL⟩ := Watched.exists_laws_backtrack hfail
        exact ⟨f.trail, hA, congrArg List.reverse htrail, .tracked (.never _ _) L, hL⟩
    · obtain ⟨R, hR, hset⟩ := (freshLaws r cs).undo_all_failed hfail hnil
      exact .inl ⟨R, hset, hroot R hR⟩

/-- The second search decides whether the clauses that remain have a model with what was kept. -/
theorem search_backtrack (H : (freshLaws r cs).Verdict [] j t) (h : Heuristic)
    (j' : Journal (Call (BoundedLiteral n))) :
    Trail.Consistent (assignment (backtrack t.formula 0)) ∧
    ∃ t', (backtrack t.formula 0).search? h j' = some t' ∧
      (t'.answer = true ↔
        ∃ v, Models (r.remaining cs (assignment (backtrack t.formula 0))) v ∧
          ∀ l ∈ assignment (backtrack t.formula 0), l.Holds v) ∧
      (t.answer = true → t'.answer = true ∧ isSatisfied t'.formula = true ∧
        isUnsatisfiable t'.formula = false) ∧
      (t'.answer = false → isSatisfied t'.formula = false ∧ isUnsatisfiable t'.formula = true) := by
  rcases exists_laws_backtrack H with ⟨R, hset, hR⟩ | ⟨hfalse, A, hcons, hA, L, hL⟩
  · obtain ⟨t', ht', H'⟩ := search ((freshLaws r cs).rest hset) h j'
    have hanswer : t'.answer = true ↔ ∃ v, Models cs v ∧ ∀ l ∈ R, l.Holds v := H'.answer_iff
    refine ⟨?_, t', ht', ?_, fun ht => ?_, fun ht => ?_⟩
    · rw [Laws.assignment_eq _ hset]
      exact Trail.consistent_reverse.mpr (Laws.consistent _ hset)
    · rw [hanswer, Laws.assignment_eq _ hset, Representation.remaining_reverse]
      simp only [List.mem_reverse]
      refine exists_congr fun v => and_congr_left fun hv => ?_
      exact (Representation.models_remaining_iff (Laws.consistent _ hset)
        (fun c => settles_freshLaws r hset c) hv).symm
    · obtain ⟨v, hv, -⟩ := H.answer_iff.mp ht
      have ht' := hanswer.mpr ⟨v, hv, hR.holds hv (by simp)⟩
      obtain ⟨B, Bs, hset', -, -, -, hend⟩ := H'.accepted ht'
      exact ⟨ht', hend.resolve_right (not_stuck_freshLaws r), Laws.not_unsatisfiable _ hset'⟩
    · obtain ⟨Bs, hfail, -⟩ := H'.rejected ht
      exact ⟨Laws.not_satisfied _ hfail, Laws.unsatisfiable _ hfail⟩
  · obtain ⟨t', ht', H'⟩ := search hL h j'
    refine ⟨hA ▸ Trail.consistent_reverse.mpr hcons, t', ht', ?_,
      fun ht => absurd (hfalse.symm.trans ht) (by simp), fun ht => ?_⟩
    · rw [H'.answer_iff, hA, Representation.remaining_reverse]
      simp only [List.mem_reverse]
    · obtain ⟨Bs, hfail, -⟩ := H'.rejected ht
      exact ⟨L.not_satisfied hfail, L.unsatisfiable hfail⟩

end Tracked

/-- The first search finds out whether the clauses have a model. The second one answers the same, and
the formula says the same of itself, exactly if the clauses have a model or else those that remain
have none with the literals that were kept. -/
theorem search_again_iff (r : Representation) (cs : List (List (BoundedLiteral n))) (h : Heuristic)
    (j : Journal (Call (BoundedLiteral n))) :
    ∃ t, (Tracked.ofClauses r cs).search? h j = some t ∧ (t.answer = true ↔ ∃ v, Models cs v) ∧
      ∀ h' j', ∃ t', (backtrack t.formula 0).search? h' j' = some t' ∧
        ((t'.answer = t.answer ∧ isSatisfied t'.formula = isSatisfied t.formula ∧
            isUnsatisfiable t'.formula = isUnsatisfiable t.formula) ↔
          ((∃ v, Models (r.remaining cs (assignment (backtrack t.formula 0))) v ∧
              ∀ l ∈ assignment (backtrack t.formula 0), l.Holds v) →
            ∃ v, Models cs v)) := by
  obtain ⟨t, ht, H⟩ := Tracked.search (Tracked.pending_ofClauses r cs) h j
  have hanswer : t.answer = true ↔ ∃ v, Models cs v := H.answer_iff.trans (by simp)
  refine ⟨t, ht, hanswer, fun h' j' => ?_⟩
  obtain ⟨-, t', ht', hanswer', htrue, hfalse⟩ := Tracked.search_backtrack H h' j'
  refine ⟨t', ht', ?_⟩
  rw [← hanswer', ← hanswer]
  constructor
  · rintro ⟨heq, -⟩ hagain
    exact heq ▸ hagain
  · intro himp
    cases hta : t.answer with
    | true =>
      obtain ⟨ha, hs, hu⟩ := htrue hta
      obtain ⟨A, As, hset, -, -, -, hend⟩ := H.accepted hta
      exact ⟨ha, hs.trans (hend.resolve_right (Tracked.not_stuck_freshLaws r)).symm,
        hu.trans (Laws.not_unsatisfiable _ hset).symm⟩
    | false =>
      have ha : t'.answer = false := by
        rw [Bool.eq_false_iff]
        exact fun ha => absurd (hta.symm.trans (himp ha)) (by simp)
      obtain ⟨hs, hu⟩ := hfalse ha
      obtain ⟨As, hfail, -⟩ := H.rejected hta
      exact ⟨ha, hs.trans (Laws.not_satisfied _ hfail).symm,
        hu.trans (Laws.unsatisfiable _ hfail).symm⟩

/-- A watched formula that demands a variable and its negation is satisfiable the second time. -/
theorem search_again_differs :
    let cs : List (List (BoundedLiteral 1)) := [[⟨⟨0⟩, by decide⟩], [⟨⟨1⟩, by decide⟩]]
    ∃ t t', (Tracked.ofClauses .watchedLiterals cs).search? (.ofName .takeFirst 0) .blank = some t ∧
      (backtrack t.formula 0).search? (.ofName .takeFirst 0) .blank = some t' ∧
      t.answer = false ∧ t'.answer = true := by
  intro cs
  obtain ⟨t, ht, H⟩ := Tracked.search (Tracked.pending_ofClauses .watchedLiterals cs)
    (.ofName .takeFirst 0) .blank
  obtain ⟨hkept, t', ht', hanswer, -⟩ := Tracked.search_backtrack H (.ofName .takeFirst 0) .blank
  have hcontradiction : ¬∃ v, Models cs v := by
    rintro ⟨v, hv⟩
    obtain ⟨a, ha, hpos⟩ := hv [⟨⟨0⟩, by decide⟩] (by simp [cs])
    obtain ⟨b, hb, hneg⟩ := hv [⟨⟨1⟩, by decide⟩] (by simp [cs])
    rw [List.mem_singleton.mp ha] at hpos
    rw [List.mem_singleton.mp hb] at hneg
    exact Literal.holds_neg.mp (show (-(⟨0⟩ : Literal)).Holds v from hneg) hpos
  have hnone : Representation.watchedLiterals.remaining cs (assignment (backtrack t.formula 0)) = [] :=
    rfl
  refine ⟨t, t', ht, ht', ?_, hanswer.mpr ⟨Trail.valuation _, ?_, fun l => hkept.holds_valuation⟩⟩
  · rw [Bool.eq_false_iff, ne_eq, H.answer_iff]
    rintro ⟨v, hv, -⟩
    exact hcontradiction ⟨v, hv⟩
  · rw [hnone]
    exact fun c hc => absurd hc List.not_mem_nil

end Dpll
