import Dpll.Proofs.UnitClosure
import Dpll.Proofs.Watched.Attention

/-! Unit propagation over watched clauses. An `Agenda` says which clauses are due on a trail; while
propagation runs, each of them is in the queue or in hand (`Watched.Tracks`). Looking at a clause
keeps this, whatever it turns out to be (`Watched.Tracks.examine`), so once the queue is empty nothing
is due (`Watched.Tracks.unitPropagate`). -/

namespace Dpll

variable {n m : Nat}

/-- What a run of propagation answers for, over clauses with the given bodies. -/
structure Agenda (bodies : Fin m → List (BoundedLiteral n)) where
  /-- The clauses that may be met in the queue. -/
  Seen : Fin m → Prop
  /-- The clauses that are to be looked at on a trail. -/
  Due : Trail n → Fin m → Prop
  /-- Literals of level zero. -/
  root : Trail n
  /-- Nothing but what is due is left to do. -/
  whole : Prop
  not_settles : ∀ {A : Trail n} {i}, A.Consistent → Due A i → ¬A.Settles (bodies i)
  of_cons : ∀ {A l i}, Due (l :: A) i → Due A i ∨ 1 < (bodies i).length ∧ -l ∈ bodies i
  seen : ∀ {A : Trail n} {x i}, root ⊆ A → A.Open x → x ∈ bodies i → 1 < (bodies i).length → Seen i
  seen_nil : ∀ {i}, bodies i = [] → Seen i
  settles : ∀ {A : Trail n} {i}, whole → ¬Due A i → A.Settles (bodies i)

/-- Every clause that may be met in the queue is one of `cs`, up to repeated literals. -/
def Agenda.CoveredBy {bodies : Fin m → List (BoundedLiteral n)} (S : Agenda bodies)
    (cs : List (List (BoundedLiteral n))) : Prop :=
  ∀ i, S.Seen i → ∃ c ∈ cs, ∀ x, x ∈ c ↔ x ∈ bodies i

namespace Watched

variable {f g h : Watched n m} {i j : Fin m} {l x : BoundedLiteral n} {k c : Level}
  {q : Queue (Fin m)}

/-! ### The queue -/

/-- Only the queue, the counters, the conflict and the journal of `g` differ from those of `f`. -/
structure Retains (f g : Watched n m) : Prop where
  clauses : ∀ i, ∃ b, g.clauses.get i = { f.clauses.get i with queued := b }
  watchers : ∀ u x, g.watchers u x = f.watchers u x
  trail : g.trail = f.trail
  levels : g.levels = f.levels
  satisfied : g.satisfied = f.satisfied
  hasEmptyClause : g.hasEmptyClause = f.hasEmptyClause

namespace Retains

theorem body (H : Retains f g) (i : Fin m) : g.body i = f.body i := by
  obtain ⟨b, hb⟩ := H.clauses i
  rw [Watched.body, hb, Watched.body]

theorem position (H : Retains f g) (i : Fin m) (u : Watch) :
    (g.clauses.get i).position u = (f.clauses.get i).position u := by
  obtain ⟨b, hb⟩ := H.clauses i
  rw [hb]
  cases u <;> rfl

theorem watched (H : Retains f g) (u : Watch) (i : Fin m) : g.watched u i = f.watched u i := by
  change (g.body i)[_]? = (f.body i)[_]?
  rw [H.body, H.position]

theorem known (H : Retains f g) (i : Fin m) : g.Known i ↔ f.Known i := by
  obtain ⟨b, hb⟩ := H.clauses i
  rw [Known, hb, Known]

theorem timeline (H : Retains f g) : g.timeline = f.timeline := by
  rw [Watched.timeline, H.trail, H.levels, Watched.timeline]

theorem placed (H : Retains f g) (hp : Placed f) : Placed g :=
  hp.congr H.body H.position H.watchers

theorem timely (H : Retains f g) (ht : Timely f c) : Timely g c := by
  refine ⟨fun y => ?_, H.timeline ▸ ht.ordered, H.satisfied ▸ ht.sorted, H.satisfied ▸ ht.le, ?_⟩
  · rw [isTrue, H.levels, H.trail]
    exact ht.isTrue y
  · intro e he
    rw [H.timeline, H.body]
    exact ht.sound e (H.satisfied ▸ he)

end Retains

theorem Heeds.congr {w : Watch} {e : Level × BoundedLiteral n} (H : f.Heeds w e)
    (hbody : ∀ i, g.body i = f.body i) (hwatched : ∀ u i, g.watched u i = f.watched u i)
    (htime : g.timeline = f.timeline) (hsat : f.satisfied ⊆ g.satisfied) : g.Heeds w e := by
  intro i hlen
  rw [hbody] at hlen ⊢
  obtain ⟨htrue, hfalse⟩ := H i hlen
  have hlog (h : ∃ s ≤ e.1, (i, s) ∈ f.satisfied) : ∃ s ≤ e.1, (i, s) ∈ g.satisfied := by
    obtain ⟨s, hs, hmem⟩ := h
    exact ⟨s, hs, hsat hmem⟩
  rw [hwatched, hwatched, htime]
  exact ⟨fun hw => hlog (htrue hw), fun hw => (hfalse hw).imp_left hlog⟩

theorem Retains.attends (H : Retains f g) {E : Timeline n} (ha : f.Attends E) : g.Attends E :=
  fun e he u => (ha e he u).congr H.body H.watched H.timeline (H.satisfied ▸ List.Subset.refl _)

section

variable {conflict : Bool} {propagationSteps : Nat} {journal : Journal (ClauseEvent (BoundedLiteral n))}

/-- A conflict, a step or an event may be reported at any time. -/
theorem retains_report : Retains f { f with conflict, propagationSteps, journal } :=
  ⟨fun _ => ⟨_, rfl⟩, fun _ _ => rfl, rfl, rfl, rfl, rfl⟩

theorem Logged.report (H : Logged f) : Logged { f with conflict, propagationSteps, journal } :=
  H.congr (fun _ => .rfl) (fun _ => .rfl) rfl rfl

end

theorem get_clauses_dequeue : (f.dequeue i q).clauses.get j =
    if i = j then { f.clauses.get j with queued := false } else f.clauses.get j := get_modifyAt ..

theorem retains_dequeue : Retains f (f.dequeue i q) := by
  refine ⟨fun j => ?_, fun u x => by cases u <;> rfl, rfl, rfl, rfl, rfl⟩
  rw [get_clauses_dequeue]
  split
  · exact ⟨false, rfl⟩
  · exact ⟨(f.clauses.get j).queued, rfl⟩

theorem queued_dequeue : (f.dequeue i q).Queued j ↔ j ≠ i ∧ f.Queued j := by
  rw [Queued, get_clauses_dequeue]
  split
  · rename_i hij
    simp [hij]
  · rename_i hij
    simp [Ne.symm hij, Queued]

theorem Logged.dequeue (H : Logged f) (hpop : f.queue.pop? = some (i, q)) :
    Logged (f.dequeue i q) := by
  have hqueue := Queue.toList_of_pop? hpop
  have hnodup := H.nodup_queue
  rw [hqueue, List.nodup_cons] at hnodup
  refine ⟨fun j => ?_, hnodup.2, fun j => ?_, H.nodup_satisfied⟩
  · change _ ↔ j ∈ q.toList
    rw [queued_dequeue, H.queued, hqueue, List.mem_cons]
    constructor
    · rintro ⟨hji, hj⟩
      exact hj.resolve_left hji
    · intro hj
      exact ⟨fun hji => hnodup.1 (hji ▸ hj), .inr hj⟩
  · exact (retains_dequeue.known j).trans (H.known j)

theorem get_clauses_foldl_unqueue (is : List (Fin m)) (clauses : Vector (WatchedClause n) m) :
    (is.foldl (fun clauses i => modifyAt clauses i fun c => { c with queued := false })
      clauses).get j =
      if j ∈ is then { clauses.get j with queued := false } else clauses.get j := by
  induction is generalizing clauses with
  | nil => simp
  | cons i is ih =>
    rw [List.foldl_cons, ih, get_modifyAt]
    by_cases hij : i = j
    · simp [hij]
    · simp [hij, Ne.symm hij]

theorem get_clauses_clearQueue : f.clearQueue.clauses.get j =
    if j ∈ f.queue.toList then { f.clauses.get j with queued := false } else f.clauses.get j :=
  get_clauses_foldl_unqueue ..

theorem retains_clearQueue : Retains f f.clearQueue := by
  refine ⟨fun j => ?_, fun u x => by cases u <;> rfl, rfl, rfl, rfl, rfl⟩
  rw [get_clauses_clearQueue]
  split
  · exact ⟨false, rfl⟩
  · exact ⟨(f.clauses.get j).queued, rfl⟩

theorem Logged.not_queued_clearQueue (H : Logged f) : ¬f.clearQueue.Queued j := by
  rw [Queued, get_clauses_clearQueue]
  split
  · simp
  · rename_i hj
    exact mt (H.queued j).mp hj

theorem Logged.clearQueue (H : Logged f) : Logged f.clearQueue := by
  refine ⟨fun j => ?_, List.nodup_nil, fun j => ?_, H.nodup_satisfied⟩
  · exact iff_of_false H.not_queued_clearQueue List.not_mem_nil
  · exact (retains_clearQueue.known j).trans (H.known j)

/-- Propagation keeps what looking at a clause from the queue keeps, and ends with an empty queue
or a falsified clause. -/
theorem unitPropagate_induction {P : Watched n m → Prop} (hf : P f)
    (hstep : ∀ g i q, P g → g.isUnsatisfiable = false → g.queue.pop? = some (i, q) →
      P ((g.dequeue i q).examine i k)) :
    ∃ g, P g ∧ (g.isUnsatisfiable = true ∧ f.unitPropagate k = g.clearQueue ∨
      g.isUnsatisfiable = false ∧ g.queue.toList = [] ∧ f.unitPropagate k = g) := by
  fun_induction unitPropagate f k with
  | case1 f hu => exact ⟨f, hf, .inl ⟨hu, rfl⟩⟩
  | case2 f hu hpop =>
    exact ⟨f, hf, .inr ⟨Bool.eq_false_iff.mpr hu, Queue.pop?_eq_none_iff.mp hpop, rfl⟩⟩
  | case3 f hu i q hpop ih => exact ih (hstep f i q hf (Bool.eq_false_iff.mpr hu) hpop)

/-! ### Looking at a clause -/

/-- What looking at a clause comes to. -/
inductive Examined (f : Watched n m) (i : Fin m) (k : Level) : Watched n m → Prop
  | known : f.Known i → Examined f i k f
  | satisfied : (∃ x ∈ f.body i, f.isTrue x = true) → Examined f i k (f.markSatisfied i k)
  | falsified {journal : Journal (ClauseEvent (BoundedLiteral n))} : (∀ x ∈ f.body i, f.isTrue (-x) = true) →
    Examined f i k { f with conflict := true, journal }
  | forced {l : BoundedLiteral n} : l ∈ f.body i → f.isOpen l = true → (∀ x ∈ f.body i, x ≠ l → f.isTrue (-x) = true) →
    Examined f i k
      (({ f with propagationSteps := f.propagationSteps + 1 }.assign l k).markSatisfied i k)
  | several {a b : BoundedLiteral n} {rest : List (BoundedLiteral n)}
    {journal : Journal (ClauseEvent (BoundedLiteral n))} : (f.body i).filter f.isOpen = a :: b :: rest →
    Examined f i k { f with journal }

theorem examine_cases (f : Watched n m) (i : Fin m) (k : Level) : Examined f i k (f.examine i k) := by
  unfold examine
  dsimp only
  split
  · rename_i hk
    exact .known hk
  split
  · rename_i _ hany
    rw [← Array.any_toList, List.any_eq_true] at hany
    exact .satisfied hany
  rename_i _ hany
  rw [← Array.any_toList, List.any_eq_true] at hany
  -- no literal of the clause is true, so what is not open is false
  have hfalse (x) (hx : x ∈ f.body i) (hxo : x ∉ (f.body i).filter f.isOpen) :
      f.isTrue (-x) = true := by
    have hnot : f.isTrue x = false := Bool.eq_false_iff.mpr fun htrue => hany ⟨x, hx, htrue⟩
    have hclosed : ¬f.isOpen x = true := fun ho => hxo (List.mem_filter.mpr ⟨hx, ho⟩)
    simpa [isOpen, hnot] using hclosed
  split
  · rename_i hnil
    refine .falsified fun x hx => hfalse x hx ?_
    rw [show (f.body i).filter f.isOpen = [] from hnil]
    exact List.not_mem_nil
  · rename_i l hone
    have hfilter : (f.body i).filter f.isOpen = [l] := hone
    obtain ⟨hl, ho⟩ := List.mem_filter.mp (hfilter ▸ List.mem_singleton_self l)
    refine .forced hl ho fun x hx hxl => hfalse x hx ?_
    rw [hfilter]
    exact fun h => hxl (List.mem_singleton.mp h)
  · rename_i htwo
    exact .several htwo

variable {bodies : Fin m → List (BoundedLiteral n)} {S : Agenda bodies} {hand : List (Fin m)}
  {cs : List (List (BoundedLiteral n))}

/-- The formula is in order at level `k`, but for the clauses in hand, which have been taken from
the queue. -/
structure Tracks (S : Agenda bodies) (k : Level) (hand : List (Fin m)) (f : Watched n m) : Prop where
  placed : Placed f
  logged : Logged f
  timely : Timely f k
  body : ∀ i, f.body i = bodies i
  empty : f.hasEmptyClause = true ↔ ∃ i, bodies i = []
  root : S.root ⊆ f.timeline.upTo 0
  seen : ∀ i, f.Queued i ∨ i ∈ hand → S.Seen i
  attends : f.hasEmptyClause = false → f.Attends f.timeline
  due : f.isUnsatisfiable = false → ∀ i, S.Due f.trail i → f.Queued i ∨ i ∈ hand
  prompt : f.isUnsatisfiable = false → S.whole → ∀ i, (bodies i).length = 1 →
    (f.Queued i ∨ i ∈ hand) ∧ k = 0 ∨ (i, 0) ∈ f.satisfied

/-- Propagation at level `k` leads from `f` to `g`. -/
structure Propagates (cs : List (List (BoundedLiteral n))) (k : Level) (f g : Watched n m) :
    Prop where
  hasEmptyClause : g.hasEmptyClause = f.hasEmptyClause
  satisfied : f.satisfied ⊆ g.satisfied
  forced : ∃ new : Trail n, g.timeline = new.map (k, ·) ++ f.timeline ∧
    g.propagationSteps = f.propagationSteps + new.length ∧
    ∀ l ∈ new, UnitClosure cs (· ∈ f.trail) l

namespace Propagates

theorem refl : Propagates cs k f f := ⟨rfl, List.Subset.refl _, [], rfl, rfl, nofun⟩

theorem trail_eq {new : Trail n} (h : g.timeline = new.map (k, ·) ++ f.timeline) :
    g.trail = new ++ f.trail := by
  rw [← literals_timeline, h, Timeline.literals_append_map, literals_timeline]

theorem trans (H : Propagates cs k f g) (H' : Propagates cs k g h) : Propagates cs k f h := by
  obtain ⟨new, htime, hsteps, hnew⟩ := H.forced
  obtain ⟨new', htime', hsteps', hnew'⟩ := H'.forced
  refine ⟨H'.hasEmptyClause.trans H.hasEmptyClause, List.Subset.trans H.satisfied H'.satisfied,
    new' ++ new, ?_, ?_, ?_⟩
  · rw [htime', htime, List.map_append, List.append_assoc]
  · rw [hsteps', hsteps, List.length_append]
    lia
  · intro l hl
    rcases List.mem_append.mp hl with hl | hl
    · have hforces : Forces cs f.trail g.trail := ⟨new, trail_eq htime, hnew⟩
      exact (hnew' l hl).trans hforces.closure
    · exact hnew l hl

end Propagates

namespace Tracks

theorem isOpen_iff (H : Tracks S k hand f) : f.isOpen l = true ↔ Trail.Open f.trail l :=
  H.timely.isOpen_iff

theorem root_subset (H : Tracks S k hand f) : S.root ⊆ f.trail := fun _ hx =>
  literals_timeline (f := f) ▸ Timeline.upTo_subset (H.root hx)

theorem clearQueue (H : Tracks S k [] f) (hu : f.isUnsatisfiable = true) :
    Tracks S k [] f.clearQueue where
  placed := retains_clearQueue.placed H.placed
  logged := H.logged.clearQueue
  timely := retains_clearQueue.timely H.timely
  body i := (retains_clearQueue.body i).trans (H.body i)
  empty := H.empty
  root := H.root
  seen i hi := absurd (hi.resolve_right List.not_mem_nil) H.logged.not_queued_clearQueue
  attends he := retains_clearQueue.timeline (f := f) ▸ retains_clearQueue.attends (H.attends he)
  due hu' := absurd (hu.symm.trans hu') (by simp)
  prompt hu' := absurd (hu.symm.trans hu') (by simp)

/-- In a conflict nothing is due. -/
theorem fail (H : Tracks S k hand f) (hu : f.isUnsatisfiable = true) : Tracks S k [] f :=
  { H with
    seen := fun i hi => H.seen i (.inl (hi.resolve_right List.not_mem_nil))
    due := fun hu' => absurd (hu.symm.trans hu') (by simp)
    prompt := fun hu' => absurd (hu.symm.trans hu') (by simp) }

theorem dequeue (H : Tracks S k [] f) (hpop : f.queue.pop? = some (i, q)) :
    Tracks S k [i] (f.dequeue i q) := by
  have hi : f.Queued i := (H.logged.queued i).mpr (Queue.toList_of_pop? hpop ▸ List.mem_cons_self)
  have hqueued (j) : (f.dequeue i q).Queued j ∨ j ∈ [i] ↔ f.Queued j ∨ j ∈ [] := by
    rw [queued_dequeue, List.mem_singleton]
    by_cases hj : j = i
    · simp [hj, hi]
    · simp [hj]
  have hret : Retains f (f.dequeue i q) := retains_dequeue
  exact {
    placed := hret.placed H.placed
    logged := H.logged.dequeue hpop
    timely := hret.timely H.timely
    body := fun j => (hret.body j).trans (H.body j)
    empty := H.empty
    root := H.root
    seen := fun j hj => H.seen j ((hqueued j).mp hj)
    attends := fun he => hret.timeline ▸ hret.attends (H.attends he)
    due := fun hu j hj => (hqueued j).mpr (H.due hu j hj)
    prompt := fun hu hw j hj => (H.prompt hu hw j hj).imp_left fun h => ⟨(hqueued j).mpr h.1, h.2⟩ }

/-- What is read off a formula in order may change elsewhere. -/
theorem retains (H : Tracks S k hand f) (hret : Retains f g) (hqueue : g.queue = f.queue)
    (hqueued : ∀ i, g.Queued i ↔ f.Queued i)
    (hu : g.isUnsatisfiable = false → f.isUnsatisfiable = false) : Tracks S k hand g where
  placed := hret.placed H.placed
  logged := H.logged.congr hqueued hret.known hqueue hret.satisfied
  timely := hret.timely H.timely
  body i := (hret.body i).trans (H.body i)
  empty := hret.hasEmptyClause ▸ H.empty
  root := hret.timeline ▸ H.root
  seen i hi := H.seen i (hi.imp_left (hqueued i).mp)
  attends he := hret.timeline ▸ hret.attends (H.attends (hret.hasEmptyClause ▸ he))
  due hg i hi := (H.due (hu hg) i (hret.trail ▸ hi)).imp_left (hqueued i).mpr
  prompt hg hw i hi := by
    rw [hret.satisfied, hqueued]
    exact H.prompt (hu hg) hw i hi

theorem markSatisfied (H : Tracks S k hand f) (hs : Trail.Satisfies f.trail (bodies i)) :
    Tracks S k hand (f.markSatisfied i k) := by
  obtain ⟨y, hy, htrue⟩ := hs
  have hm : Maintains y k f (f.markSatisfied i k) :=
    .markSatisfied ⟨y, H.body i ▸ hy, (H.timely.isTrue y).mpr htrue⟩
  have hu : (f.markSatisfied i k).isUnsatisfiable = f.isUnsatisfiable := by
    rw [isUnsatisfiable, hm.hasEmptyClause, hm.conflict, isUnsatisfiable]
  exact {
    placed := H.placed.markSatisfied
    logged := H.logged.markSatisfied
    timely := H.timely.maintains hm
    body := fun j => (hm.body j).trans (H.body j)
    empty := hm.hasEmptyClause ▸ H.empty
    root := hm.timeline ▸ H.root
    seen := fun j hj => H.seen j (hj.imp_left queued_markSatisfied.mp)
    attends := by
      intro he e hmem u
      rw [hm.timeline] at hmem
      exact (H.attends (hm.hasEmptyClause ▸ he) e hmem u).congr hm.body
        (fun _ _ => watched_markSatisfied) hm.timeline fun _ hd => hm.mem_satisfied hd
    due := by
      intro hg j hj
      rw [queued_markSatisfied]
      exact H.due (hu ▸ hg) j (hm.trail ▸ hj)
    prompt := by
      intro hg hw j hj
      rw [queued_markSatisfied]
      exact (H.prompt (hu ▸ hg) hw j hj).imp_right fun h => hm.mem_satisfied h }

/-- A clause in hand may be put down once it is settled. -/
theorem putDown (H : Tracks S k [i] f) (hs : Trail.Settles f.trail (bodies i))
    (hone : S.whole → (bodies i).length = 1 → k = 0 → (i, 0) ∈ f.satisfied) : Tracks S k [] f := by
  refine { H with
    seen := fun j hj => H.seen j (.inl (hj.resolve_right List.not_mem_nil))
    due := fun hu j hj => .inl ?_
    prompt := fun hu hw j hj => ?_ }
  · rcases H.due hu j hj with hq | hmem
    · exact hq
    · obtain rfl := List.mem_singleton.mp hmem
      exact absurd hs (S.not_settles H.timely.consistent hj)
  · rcases H.prompt hu hw j hj with ⟨hq | hmem, hk⟩ | hlog
    · exact .inl ⟨.inl hq, hk⟩
    · obtain rfl := List.mem_singleton.mp hmem
      exact .inr (hone hw hj hk)
    · exact .inr hlog

theorem putDown_known (H : Tracks S k [i] f) (hi : f.Known i) : Tracks S k [] f := by
  refine H.putDown (.inl (H.body i ▸ H.timely.satisfies_of_known H.logged hi)) ?_
  intro _ _ hk
  obtain ⟨⟨_, s⟩, hs, rfl⟩ := List.mem_map.mp ((H.logged.known i).mp hi)
  have hle := H.timely.le _ hs
  obtain rfl : s = 0 := Nat.eq_zero_of_le_zero (hk ▸ hle)
  exact hs

theorem assign (H : Tracks S k hand f) (hc : f.conflict = false) (ho : Trail.Open f.trail l) :
    Tracks S k hand (f.assign l k) ∧ Maintains (-l) k (f.fix l k) (f.assign l k) := by
  have A := assign_spec H.placed H.logged H.timely (Nat.le_refl k) ho
  generalize f.assign l k = g at A ⊢
  have hm := A.maintains
  have htime : g.timeline = (k, l) :: f.timeline := hm.timeline.trans (timeline_fix ho.1)
  have htrail : g.trail = l :: f.trail := hm.trail
  have hbody (i) : g.body i = f.body i := hm.body i
  have hqueued {i} (hi : f.Queued i) : g.Queued i := hm.queued (f := f.fix l k)
    (H.logged.congr (fun _ => .rfl) (fun _ => .rfl) rfl rfl) A.logged hi
  have hu : g.isUnsatisfiable = f.isUnsatisfiable := by
    rw [isUnsatisfiable, hm.hasEmptyClause, hm.conflict]
    rfl
  refine ⟨?_, hm⟩
  refine ⟨A.placed, A.logged, A.timely, fun i => (hbody i).trans (H.body i), ?_, ?_, ?_, ?_, ?_, ?_⟩
  · rw [hm.hasEmptyClause]
    exact H.empty
  · rw [htime]
    exact fun x hx => Timeline.upTo_cons_subset (H.root hx)
  · intro i hi
    rcases hi with hi | hi
    · obtain ⟨new, heq, hnew⟩ := hm.queue
      rw [A.logged.queued, heq] at hi
      rcases List.mem_append.mp hi with hi | hi
      · exact H.seen i (.inl ((H.logged.queued i).mpr hi))
      · obtain ⟨hlen, hmem⟩ := hnew i hi
        have hbody' : (f.fix l k).body i = bodies i := H.body i
        rw [hbody'] at hlen hmem
        exact S.seen H.root_subset (Trail.open_neg.mpr ho) hmem hlen
    · exact H.seen i (.inr hi)
  · intro he e hmem u
    rw [hm.hasEmptyClause] at he
    have hatt := H.attends he
    rw [htime] at hmem
    rcases List.mem_cons.mp hmem with rfl | hmem
    · refine A.heeds_self ?_ u
      rw [isUnsatisfiable, hc]
      exact Bool.or_eq_false_iff.mpr ⟨he, rfl⟩
    · exact A.heeds e hmem u (hatt e hmem u)
  · intro hg i hi
    rw [hu] at hg
    have hns := S.not_settles A.timely.consistent hi
    rw [htrail] at hi hns
    rcases S.of_cons hi with hi | ⟨hlen, hmem⟩
    · exact (H.due hg i hi).imp_left hqueued
    · have he : f.hasEmptyClause = false := (Bool.or_eq_false_iff.mp hg).1
      rw [← H.body] at hlen hmem hns
      exact .inl (A.queued hg (H.attends he) i hlen hmem hns)
  · intro hg hw i hi
    rcases H.prompt (hu ▸ hg) hw i hi with ⟨hq, hk⟩ | hlog
    · exact .inl ⟨hq.imp_left hqueued, hk⟩
    · exact .inr (hm.mem_satisfied hlog)

/-- If the formula has a conflict, then with a clause that may be met in the queue. -/
def Explains (S : Agenda bodies) (f : Watched n m) : Prop :=
  f.conflict = true → ∃ i, S.Seen i ∧ Trail.Falsifies f.trail (bodies i)

theorem explains_of_not_conflict (hc : f.conflict = false) : Explains S f := fun h =>
  absurd (hc.symm.trans h) (by simp)

/-- The last open literal of a clause is forced. -/
theorem force (H : Tracks S k [i] f) (hu : f.isUnsatisfiable = false) (hcs : S.CoveredBy cs)
    (ho : Trail.Open f.trail l) (hl : l ∈ bodies i)
    (hrest : ∀ x ∈ bodies i, x ≠ l → -x ∈ f.trail) :
    Tracks S k [] (({ f with propagationSteps := f.propagationSteps + 1 }.assign l k).markSatisfied
      i k) ∧
    Propagates cs k f (({ f with propagationSteps := f.propagationSteps + 1 }.assign l
      k).markSatisfied i k) ∧
    (({ f with propagationSteps := f.propagationSteps + 1 }.assign l k).markSatisfied i
      k).conflict = false := by
  have hc : f.conflict = false := (Bool.or_eq_false_iff.mp hu).2
  have H' : Tracks S k [i] { f with propagationSteps := f.propagationSteps + 1 } :=
    H.retains retains_report rfl (fun _ => .rfl) id
  obtain ⟨A, hassign⟩ := H'.assign hc ho
  have hmark := maintains_markSatisfied_assign (x := -l) (k := k) H'.placed H'.logged (H.body i ▸ hl)
  generalize { f with propagationSteps := f.propagationSteps + 1 }.assign l k = g at *
  have htrue : l ∈ g.trail := hassign.trail ▸ List.mem_cons_self
  have hm := hassign.trans hmark
  refine ⟨(A.markSatisfied ⟨l, hl, htrue⟩).putDown_known (known_markSatisfied.mpr (.inl rfl)), ?_, ?_⟩
  · refine ⟨hm.hasEmptyClause, fun _ hd => hm.mem_satisfied hd, [l], ?_, hm.propagationSteps,
      fun x hx => ?_⟩
    · exact hm.timeline.trans (timeline_fix (f := { f with propagationSteps := _ }) ho.1)
    · obtain rfl := List.mem_singleton.mp hx
      obtain ⟨d, hd, hmem⟩ := hcs i (H.seen i (.inr (List.mem_singleton_self i)))
      refine .unit hd ((hmem x).mpr hl) fun y hy hyx => ?_
      exact .base (hrest y ((hmem y).mp hy) hyx)
  · exact hm.conflict.trans hc

/-- Looking at the clause in hand settles it or finds it falsified. -/
theorem examine (H : Tracks S k [i] f) (hu : f.isUnsatisfiable = false) (hcs : S.CoveredBy cs) :
    Tracks S k [] (f.examine i k) ∧ Propagates cs k f (f.examine i k) ∧
      Explains S (f.examine i k) := by
  have hc : f.conflict = false := (Bool.or_eq_false_iff.mp hu).2
  have hfalse {x} (hx : f.isTrue (-x) = true) : -x ∈ f.trail := (H.timely.isTrue (-x)).mp hx
  have hE := examine_cases f i k
  generalize f.examine i k = g at hE ⊢
  cases hE with
  | known hk => exact ⟨H.putDown_known hk, .refl, explains_of_not_conflict hc⟩
  | satisfied hs =>
    obtain ⟨y, hy, htrue⟩ := hs
    have hm : Maintains y k f (f.markSatisfied i k) := .markSatisfied ⟨y, hy, htrue⟩
    have hs : Trail.Satisfies f.trail (bodies i) := ⟨y, H.body i ▸ hy, (H.timely.isTrue y).mp htrue⟩
    refine ⟨(H.markSatisfied hs).putDown_known (known_markSatisfied.mpr (.inl rfl)), ?_, ?_⟩
    · exact ⟨hm.hasEmptyClause, fun _ hd => hm.mem_satisfied hd, [], hm.timeline,
        hm.propagationSteps, nofun⟩
    · exact explains_of_not_conflict (hm.conflict.trans hc)
  | @falsified journal hall =>
    have hfalsified : Trail.Falsifies f.trail (bodies i) := fun x hx =>
      hfalse (hall x ((H.body i).symm ▸ hx))
    have hfail : Tracks S k [i] { f with conflict := true, journal } :=
      H.retains retains_report rfl (fun _ => .rfl)
        fun _ => hu
    refine ⟨hfail.fail (Bool.or_true _), ⟨rfl, List.Subset.refl _, [], rfl, rfl, nofun⟩, fun _ => ?_⟩
    exact ⟨i, H.seen i (.inr (List.mem_singleton_self i)), hfalsified⟩
  | @forced l hl ho hrest =>
    obtain ⟨hg, hprop, hgc⟩ := H.force hu hcs (H.isOpen_iff.mp ho) (H.body i ▸ hl)
      fun x hx hxl => hfalse (hrest x ((H.body i).symm ▸ hx) hxl)
    exact ⟨hg, hprop, explains_of_not_conflict hgc⟩
  | @several a b rest journal hfilter =>
    have hopen {x} (hx : x ∈ (f.body i).filter f.isOpen) :
        x ∈ bodies i ∧ Trail.Open f.trail x := by
      obtain ⟨hx, hxo⟩ := List.mem_filter.mp hx
      exact ⟨H.body i ▸ hx, H.isOpen_iff.mp hxo⟩
    obtain ⟨ha, hao⟩ := hopen (hfilter ▸ List.mem_cons_self : a ∈ _)
    obtain ⟨hb, hbo⟩ := hopen (hfilter ▸ List.mem_cons_of_mem a List.mem_cons_self : b ∈ _)
    have hne : a ≠ b := by
      have hnodup := (H.placed.nodup i).filter f.isOpen
      rw [hfilter, List.nodup_cons, List.mem_cons, not_or] at hnodup
      exact hnodup.1.1
    refine ⟨?_, ⟨rfl, List.Subset.refl _, [], rfl, rfl, nofun⟩, explains_of_not_conflict hc⟩
    refine putDown (f := { f with journal }) ?_ (.inr ⟨a, ha, b, hb, hne, hao, hbo⟩) ?_
    · exact H.retains retains_report rfl (fun _ => .rfl) id
    · intro _ hlen
      obtain ⟨x, hx⟩ := List.length_eq_one_iff.mp hlen
      rw [hx] at ha hb
      exact absurd ((List.mem_singleton.mp ha).trans (List.mem_singleton.mp hb).symm) hne

/-- Propagation ends with nothing due, or with a conflict. -/
theorem unitPropagate (H : Tracks S k [] f) (hc : f.conflict = false) (hcs : S.CoveredBy cs) :
    Tracks S k [] (f.unitPropagate k) ∧ (f.unitPropagate k).queue.toList = [] ∧
      Propagates cs k f (f.unitPropagate k) ∧ Explains S (f.unitPropagate k) := by
  have hstep (g i q) (hg : Tracks S k [] g ∧ Propagates cs k f g ∧ Explains S g)
      (hu : g.isUnsatisfiable = false) (hpop : g.queue.pop? = some (i, q)) :
      Tracks S k [] ((g.dequeue i q).examine i k) ∧
        Propagates cs k f ((g.dequeue i q).examine i k) ∧
        Explains S ((g.dequeue i q).examine i k) := by
    obtain ⟨hg', hprop, hex⟩ := (hg.1.dequeue hpop).examine hu hcs
    exact ⟨hg', hg.2.1.trans ⟨hprop.hasEmptyClause, hprop.satisfied, hprop.forced⟩, hex⟩
  obtain ⟨g, ⟨hg, hprop, hex⟩, hend⟩ :=
    unitPropagate_induction (k := k) ⟨H, .refl, explains_of_not_conflict hc⟩ hstep
  rcases hend with ⟨hu, heq⟩ | ⟨hu, hqueue, heq⟩
  · rw [heq]
    exact ⟨hg.clearQueue hu, rfl, ⟨hprop.hasEmptyClause, hprop.satisfied, hprop.forced⟩, hex⟩
  · rw [heq]
    exact ⟨hg, hqueue, hprop, hex⟩

end Tracks

end Watched

end Dpll
