import Dpll.Proofs.Watched.Views

/-! The books of a watched formula. Every clause with two literals stands in the lists of exactly the
two literals it watches (`Watched.Placed`), and the queue and the log of satisfied clauses agree with
what the clauses say of themselves (`Watched.Logged`). Marking and queueing clauses keeps both;
`Watched.Maintains` says what else watch maintenance leaves alone. -/

namespace Dpll

namespace Watched

variable {n m : Nat} {f g h : Watched n m} {w u : Watch} {l x y z : BoundedLiteral n} {i j : Fin m}
  {k : Level}

/-- The watches of every clause are apart, and its watchers lists say where they are. -/
structure Placed (f : Watched n m) : Prop where
  nodup : ∀ i, (f.body i).Nodup
  lt : ∀ i u, 1 < (f.body i).length → (f.clauses.get i).position u < (f.body i).length
  ne : ∀ i u, 1 < (f.body i).length →
    (f.clauses.get i).position u ≠ (f.clauses.get i).position u.other
  mem_watchers : ∀ u x i, i ∈ (f.watchers u x).toList ↔
    1 < (f.body i).length ∧ f.watched u i = some x
  nodup_watchers : ∀ u x, (f.watchers u x).toList.Nodup

/-- The queue and the log of satisfied clauses hold what the clauses say they hold, once. -/
structure Logged (f : Watched n m) : Prop where
  queued : ∀ i, f.Queued i ↔ i ∈ f.queue.toList
  nodup_queue : f.queue.toList.Nodup
  known : ∀ i, f.Known i ↔ i ∈ f.satisfied.map (·.1)
  nodup_satisfied : (f.satisfied.map (·.1)).Nodup

/-- What watch maintenance at level `k` does while the literal `x` is being falsified: satisfied
clauses are added to the log, clauses of `x` to the queue, and nothing but watches changes. -/
structure Maintains (x : BoundedLiteral n) (k : Level) (f g : Watched n m) : Prop where
  literals : ∀ i, (g.clauses.get i).literals = (f.clauses.get i).literals
  levels : g.levels = f.levels
  trail : g.trail = f.trail
  hasEmptyClause : g.hasEmptyClause = f.hasEmptyClause
  conflict : g.conflict = f.conflict
  propagationSteps : g.propagationSteps = f.propagationSteps
  satisfied : ∃ new, g.satisfied = new ++ f.satisfied ∧
    ∀ e ∈ new, e.2 = k ∧ ∃ y ∈ f.body e.1, f.isTrue y = true
  queue : ∃ new, g.queue.toList = f.queue.toList ++ new ∧
    ∀ i ∈ new, 1 < (f.body i).length ∧ x ∈ f.body i

namespace Maintains

theorem body (H : Maintains x k f g) (i : Fin m) : g.body i = f.body i := by
  rw [Watched.body, H.literals, Watched.body]

theorem isTrue (H : Maintains x k f g) : g.isTrue = f.isTrue := by
  funext y
  rw [Watched.isTrue, H.levels, Watched.isTrue]

theorem isOpen (H : Maintains x k f g) : g.isOpen = f.isOpen := by
  funext y
  rw [Watched.isOpen, H.isTrue, Watched.isOpen]

theorem refl : Maintains x k f f :=
  ⟨fun _ => rfl, rfl, rfl, rfl, rfl, rfl, ⟨[], rfl, nofun⟩, ⟨[], by simp, nofun⟩⟩

theorem trans (H : Maintains x k f g) (H' : Maintains x k g h) : Maintains x k f h where
  literals i := (H'.literals i).trans (H.literals i)
  levels := H'.levels.trans H.levels
  trail := H'.trail.trans H.trail
  hasEmptyClause := H'.hasEmptyClause.trans H.hasEmptyClause
  conflict := H'.conflict.trans H.conflict
  propagationSteps := H'.propagationSteps.trans H.propagationSteps
  satisfied := by
    obtain ⟨new, heq, hnew⟩ := H.satisfied
    obtain ⟨new', heq', hnew'⟩ := H'.satisfied
    refine ⟨new' ++ new, by rw [heq', heq, List.append_assoc], fun e he => ?_⟩
    rcases List.mem_append.mp he with he | he
    · rw [← H.isTrue, ← H.body]
      exact hnew' e he
    · exact hnew e he
  queue := by
    obtain ⟨new, heq, hnew⟩ := H.queue
    obtain ⟨new', heq', hnew'⟩ := H'.queue
    refine ⟨new ++ new', by rw [heq', heq, List.append_assoc], fun i hi => ?_⟩
    rcases List.mem_append.mp hi with hi | hi
    · exact hnew i hi
    · rw [← H.body]
      exact hnew' i hi

theorem countCheck : Maintains x k f f.countCheck :=
  ⟨fun _ => rfl, rfl, rfl, rfl, rfl, rfl, ⟨[], rfl, nofun⟩, ⟨[], by simp [Watched.countCheck], nofun⟩⟩

theorem markSatisfied (hy : ∃ y ∈ f.body i, f.isTrue y = true) :
    Maintains x k f (f.markSatisfied i k) := by
  unfold Watched.markSatisfied
  split
  · exact refl
  · refine ⟨fun j => ?_, rfl, rfl, rfl, rfl, rfl, ⟨[(i, k)], rfl, ?_⟩, ⟨[], by simp, nofun⟩⟩
    · dsimp only
      rw [get_modifyAt]
      split <;> rfl
    · intro e he
      obtain rfl := List.mem_singleton.mp he
      exact ⟨rfl, hy⟩

theorem enqueue (hlen : 1 < (f.body i).length) (hx : x ∈ f.body i) :
    Maintains x k f (f.enqueue i) := by
  unfold Watched.enqueue
  split
  · exact refl
  · refine ⟨fun j => ?_, rfl, rfl, rfl, rfl, rfl, ⟨[], rfl, nofun⟩, ⟨[i], by simp, ?_⟩⟩
    · dsimp only
      rw [get_modifyAt]
      split <;> rfl
    · intro j hj
      obtain rfl := List.mem_singleton.mp hj
      exact ⟨hlen, hx⟩

theorem modifyWatchers (r : Array (Fin m) → Array (Fin m)) :
    Maintains x k f (f.modifyWatchers u y r) := by
  cases u <;> exact ⟨fun _ => rfl, rfl, rfl, rfl, rfl, rfl, ⟨[], rfl, nofun⟩,
    ⟨[], by simp [Watched.modifyWatchers], nofun⟩⟩

end Maintains

/-! ### Operations that leave the watches alone -/

theorem Placed.congr (H : Placed f) (hbody : ∀ i, g.body i = f.body i)
    (hpos : ∀ i u, (g.clauses.get i).position u = (f.clauses.get i).position u)
    (hwatchers : ∀ u x, g.watchers u x = f.watchers u x) : Placed g := by
  have hwatched (u i) : g.watched u i = f.watched u i := by
    change (g.body i)[_]? = (f.body i)[_]?
    rw [hbody, hpos]
  refine ⟨?_, ?_, ?_, ?_, ?_⟩
  · intro i
    exact hbody i ▸ H.nodup i
  · intro i u
    rw [hbody, hpos]
    exact H.lt i u
  · intro i u
    rw [hbody, hpos, hpos]
    exact H.ne i u
  · intro u x i
    rw [hwatchers, hbody, hwatched]
    exact H.mem_watchers u x i
  · intro u x
    rw [hwatchers]
    exact H.nodup_watchers u x

theorem Logged.congr (H : Logged f) (hqueued : ∀ i, g.Queued i ↔ f.Queued i)
    (hknown : ∀ i, g.Known i ↔ f.Known i) (hqueue : g.queue = f.queue)
    (hsatisfied : g.satisfied = f.satisfied) : Logged g := by
  refine ⟨fun i => ?_, hqueue ▸ H.nodup_queue, fun i => ?_, hsatisfied ▸ H.nodup_satisfied⟩
  · rw [hqueued, hqueue, H.queued]
  · rw [hknown, hsatisfied, H.known]

/-- All clauses are satisfied when all are known to be. -/
theorem Logged.isSatisfied_iff (H : Logged f) : f.isSatisfied = true ↔ ∀ i, f.Known i := by
  have hsub : (f.satisfied.map (·.1)).Subperm (List.finRange m) :=
    H.nodup_satisfied.subperm fun i _ => List.mem_finRange i
  rw [isSatisfied, beq_iff_eq]
  constructor
  · intro hlen i
    have hperm := hsub.perm_of_length_le (by simp [hlen])
    exact (H.known i).mpr (hperm.mem_iff.mpr (List.mem_finRange i))
  · intro hall
    have hperm := (List.perm_ext_iff_of_nodup H.nodup_satisfied (List.nodup_finRange m)).mpr
      fun i => iff_of_true ((H.known i).mp (hall i)) (List.mem_finRange i)
    simpa using hperm.length_eq

section Mark

@[simp]
theorem watchers_markSatisfied : (f.markSatisfied i k).watchers u x = f.watchers u x := by
  unfold markSatisfied
  split <;> rfl

@[simp]
theorem watchers_enqueue : (f.enqueue i).watchers u x = f.watchers u x := by
  unfold enqueue
  split <;> rfl

theorem watched_markSatisfied : (f.markSatisfied i k).watched u j = f.watched u j := by
  rw [watched, get_clauses_markSatisfied]
  split <;> rfl

theorem watched_enqueue : (f.enqueue i).watched u j = f.watched u j := by
  rw [watched, get_clauses_enqueue]
  split <;> rfl

theorem known_markSatisfied : (f.markSatisfied i k).Known j ↔ i = j ∨ f.Known j := by
  rw [Known, get_clauses_markSatisfied]
  split
  · simp_all
  · simp_all [Known]

theorem queued_enqueue : (f.enqueue i).Queued j ↔ i = j ∨ f.Queued j := by
  rw [Queued, get_clauses_enqueue]
  split
  · simp_all
  · simp_all [Queued]

theorem known_enqueue : (f.enqueue i).Known j ↔ f.Known j := by
  rw [Known, get_clauses_enqueue]
  split <;> rfl

theorem queued_markSatisfied : (f.markSatisfied i k).Queued j ↔ f.Queued j := by
  rw [Queued, get_clauses_markSatisfied]
  split <;> rfl

theorem Placed.markSatisfied (H : Placed f) : Placed (f.markSatisfied i k) := by
  refine H.congr (fun j => ?_) (fun j u => ?_) fun u x => watchers_markSatisfied
  · rw [body, get_clauses_markSatisfied]
    split <;> rfl
  · rw [get_clauses_markSatisfied]
    split
    · cases u <;> rfl
    · rfl

theorem Placed.enqueue (H : Placed f) : Placed (f.enqueue i) := by
  refine H.congr (fun j => ?_) (fun j u => ?_) fun u x => watchers_enqueue
  · rw [body, get_clauses_enqueue]
    split <;> rfl
  · rw [get_clauses_enqueue]
    split
    · cases u <;> rfl
    · rfl

theorem Logged.markSatisfied (H : Logged f) : Logged (f.markSatisfied i k) where
  queued j := by
    rw [queued_markSatisfied, queue_markSatisfied, H.queued]
  nodup_queue := by
    rw [queue_markSatisfied]
    exact H.nodup_queue
  known j := by
    rw [known_markSatisfied, satisfied_markSatisfied]
    split
    · rename_i hi
      rw [← H.known]
      constructor
      · rintro (rfl | hj)
        · exact hi
        · exact hj
      · exact .inr
    · rw [List.map_cons, List.mem_cons, ← H.known, eq_comm]
  nodup_satisfied := by
    rw [satisfied_markSatisfied]
    split
    · exact H.nodup_satisfied
    · rename_i hi
      exact List.nodup_cons.mpr ⟨mt (H.known i).mpr hi, H.nodup_satisfied⟩

theorem Logged.enqueue (H : Logged f) : Logged (f.enqueue i) where
  queued j := by
    rw [queued_enqueue, queue_enqueue]
    split
    · rename_i hi
      rw [← H.queued]
      constructor
      · rintro (rfl | hj)
        · exact hi
        · exact hj
      · exact .inr
    · rw [List.mem_append, List.mem_singleton, ← H.queued, or_comm, eq_comm]
  nodup_queue := by
    rw [queue_enqueue]
    split
    · exact H.nodup_queue
    · rename_i hi
      rw [List.nodup_append]
      refine ⟨H.nodup_queue, List.nodup_singleton i, fun a ha b hb hab => hi ?_⟩
      rw [List.mem_singleton.mp hb] at hab
      exact (H.queued i).mpr (hab ▸ ha)
  known j := by
    have hsatisfied : (f.enqueue i).satisfied = f.satisfied := by
      unfold Watched.enqueue
      split <;> rfl
    rw [known_enqueue, hsatisfied, H.known]
  nodup_satisfied := by
    have hsatisfied : (f.enqueue i).satisfied = f.satisfied := by
      unfold Watched.enqueue
      split <;> rfl
    rw [hsatisfied]
    exact H.nodup_satisfied

end Mark

end Watched

end Dpll
