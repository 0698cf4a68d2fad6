import Dpll.Proofs.Watched.Propagation

/-! The formula that is built from clauses. Clauses are registered one after another: the lists of
watchers and the queue hold exactly the clauses registered so far that belong there (`Registers`). -/

namespace Dpll

namespace Watched

variable {n m : Nat} {f g : Watched n m} {i j : Fin m} {x : BoundedLiteral n} {u : Watch}
  {done : List (Fin m)} {cs : List (List (BoundedLiteral n))}

/-- The formula `g` is `f`, none of whose clauses was registered, with the clauses of a list
registered. -/
structure Registers (f : Watched n m) (done : List (Fin m)) (g : Watched n m) : Prop where
  clauses : g.clauses = f.clauses
  levels : g.levels = f.levels
  trail : g.trail = f.trail
  satisfied : g.satisfied = f.satisfied
  conflict : g.conflict = f.conflict
  propagationSteps : g.propagationSteps = f.propagationSteps
  watchers : ∀ u x, (g.watchers u x).toList =
    done.filter fun i => 1 < (f.body i).length && f.watched u i == some x
  queue : g.queue.toList = done.filter fun i => (f.body i).length == 1
  empty : g.hasEmptyClause = true ↔ ∃ i ∈ done, f.body i = []

/-- Every clause watches its first two literals. -/
def WatchesFirst (f : Watched n m) : Prop :=
  ∀ i, 1 < (f.body i).length → f.watched .first i = (f.body i)[0]? ∧
    f.watched .second i = (f.body i)[1]?

theorem Registers.register (H : Registers f done g) (hf : WatchesFirst f) :
    Registers f (done ++ [i]) (g.register i) := by
  have hliterals : (g.clauses.get i).literals.toList = f.body i := by rw [H.clauses, body]
  have hsize : (g.clauses.get i).literals.size = (f.body i).length := by
    rw [← hliterals, Array.length_toList]
  unfold Watched.register
  dsimp only
  split
  · rename_i hlen
    have hlen' : 1 < (f.body i).length := hsize ▸ hlen
    have hfirst : f.watched .first i = some (g.clauses.get i).literals[0] := by
      rw [(hf i hlen').1, ← hliterals, Array.getElem?_toList, Array.getElem?_eq_getElem]
    have hsecond : f.watched .second i = some (g.clauses.get i).literals[1] := by
      rw [(hf i hlen').2, ← hliterals, Array.getElem?_toList, Array.getElem?_eq_getElem]
    refine { H with watchers := fun u x => ?_, queue := ?_, empty := ?_ }
    · rw [watchers_modifyWatchers, watchers_modifyWatchers, List.filter_append, ← H.watchers]
      cases u with
      | first => by_cases hx : (g.clauses.get i).literals[0] = x <;> simp [hx, hlen', hfirst]
      | second => by_cases hx : (g.clauses.get i).literals[1] = x <;> simp [hx, hlen', hsecond]
    · have hne : ((f.body i).length == 1) = false := by
        rw [beq_eq_false_iff_ne]
        lia
      rw [List.filter_append, List.filter_singleton, hne, cond_false, List.append_nil]
      exact H.queue
    · have hne : f.body i ≠ [] := List.length_pos_iff.mp (Nat.lt_of_succ_lt hlen')
      simp only [List.mem_append, List.mem_singleton, or_and_right, exists_or, exists_eq_left, hne,
        or_false]
      exact H.empty
  · rename_i hlen
    have hshort : decide (1 < (f.body i).length) = false := by simpa [hsize] using hlen
    have hwatchers (u x) : (g.watchers u x).toList = (done ++ [i]).filter fun i =>
        1 < (f.body i).length && f.watched u i == some x := by
      rw [List.filter_append, ← H.watchers, List.filter_singleton, hshort]
      simp
    split
    · rename_i hone
      rw [hsize] at hone
      have hne : f.body i ≠ [] := by
        intro h
        rw [h] at hone
        cases hone
      refine { H with watchers := hwatchers, queue := ?_, empty := ?_ }
      · rw [Queue.toList_push, List.filter_append, List.filter_singleton, hone, H.queue]
        rfl
      · simpa [hne] using H.empty
    · rename_i hone
      have hnil : f.body i = [] := by
        rw [hsize] at hlen hone
        exact List.length_eq_zero_iff.mp (by lia)
      refine { H with watchers := hwatchers, queue := ?_, empty := ?_ }
      · rw [List.filter_append, List.filter_singleton, hnil]
        simpa using H.queue
      · simp [hnil]

theorem Registers.foldl (H : Registers f done g) (hf : WatchesFirst f) (is : List (Fin m)) :
    Registers f (done ++ is) (is.foldl Watched.register g) := by
  induction is generalizing g done with
  | nil => exact (List.append_nil done).symm ▸ H
  | cons i is ih =>
    rw [List.append_cons]
    exact ih (H.register hf)

/-! ### The fresh formula -/

private theorem size_map_ofLiterals (cs : List (List (BoundedLiteral n))) :
    (cs.map WatchedClause.ofLiterals).toArray.size = cs.length := by simp

/-- The formula of the given clauses before they are registered. -/
def blank (cs : List (List (BoundedLiteral n))) : Watched n cs.length where
  clauses := ⟨(cs.map WatchedClause.ofLiterals).toArray, size_map_ofLiterals cs⟩
  firstWatchers := .replicate n #[]
  secondWatchers := .replicate n #[]
  levels := .replicate n none
  trail := []
  satisfied := []
  queue := .empty
  hasEmptyClause := false
  conflict := false
  propagationSteps := 0
  checkedClauses := 0
  journal := .closed

private theorem get_clauses_blank (i : Fin cs.length) :
    (blank cs).clauses.get i = .ofLiterals (cs.get i) := by
  simp [blank, Vector.get]
  rfl

private theorem body_blank (i : Fin cs.length) : (blank cs).body i = (cs.get i).eraseDups := by
  rw [body, get_clauses_blank, WatchedClause.ofLiterals]

/-- A new clause of at least two literals watches the first two. -/
private theorem position_ofLiterals {ls : List (BoundedLiteral n)} (hlen : 1 < ls.eraseDups.length) :
    (WatchedClause.ofLiterals ls).position u = if u = .first then 0 else 1 := by
  have hsize : ¬ls.eraseDups.toArray.size < 2 := by
    rw [List.size_toArray]
    lia
  cases u with
  | first => rfl
  | second =>
    simp only [WatchedClause.ofLiterals, WatchedClause.position, if_neg hsize, reduceCtorEq, if_false]

private theorem watchesFirst_blank : WatchesFirst (blank cs) := by
  intro i hlen
  have hposition (u) : (blank cs).watched u i =
      ((blank cs).body i)[if u = .first then 0 else 1]? := by
    rw [body_blank] at hlen
    rw [← position_ofLiterals hlen, ← get_clauses_blank]
    rfl
  exact ⟨hposition .first, hposition .second⟩

private theorem registers_ofClauses :
    Registers (blank cs) (List.finRange cs.length) (ofClauses cs) := by
  have hblank : Registers (blank cs) [] (blank cs) := by
    refine ⟨rfl, rfl, rfl, rfl, rfl, rfl, fun u x => ?_, rfl, ?_⟩
    · cases u <;> simp [blank, watchers]
    · simp [blank]
  exact hblank.foldl watchesFirst_blank (List.finRange cs.length)

theorem get_clauses_ofClauses (i : Fin cs.length) :
    (ofClauses cs).clauses.get i = .ofLiterals (cs.get i) := by
  rw [registers_ofClauses.clauses, get_clauses_blank]

theorem body_ofClauses (i : Fin cs.length) : (ofClauses cs).body i = (cs.get i).eraseDups := by
  rw [body, get_clauses_ofClauses, WatchedClause.ofLiterals]

theorem trail_ofClauses : (ofClauses cs).trail = [] := registers_ofClauses.trail

theorem conflict_ofClauses : (ofClauses cs).conflict = false := registers_ofClauses.conflict

theorem satisfied_ofClauses : (ofClauses cs).satisfied = [] := registers_ofClauses.satisfied

theorem timeline_ofClauses : (ofClauses cs).timeline = [] := by
  rw [timeline, trail_ofClauses, List.map_nil]

theorem hasEmptyClause_ofClauses : (ofClauses cs).hasEmptyClause = true ↔ [] ∈ cs := by
  rw [registers_ofClauses.empty, nil_mem_iff]
  simp [body_blank]

theorem placed_ofClauses : Placed (ofClauses cs) := by
  have H : Registers (blank cs) _ _ := registers_ofClauses
  have hbody (i) : (ofClauses cs).body i = (blank cs).body i := by rw [body, H.clauses, body]
  have hposition (i u) (hlen : 1 < ((ofClauses cs).body i).length) :
      ((ofClauses cs).clauses.get i).position u = if u = .first then 0 else 1 := by
    rw [body_ofClauses] at hlen
    rw [get_clauses_ofClauses, position_ofLiterals hlen]
  refine ⟨fun i => ?_, fun i u hlen => ?_, fun i u hlen => ?_, fun u x i => ?_, fun u x => ?_⟩
  · rw [body_ofClauses]
    exact nodup_eraseDups _
  · rw [hposition i u hlen]
    split <;> lia
  · rw [hposition i u hlen, hposition i u.other hlen]
    cases u <;> simp [Watch.other]
  · rw [H.watchers, watched, H.clauses, hbody]
    simp [watched]
  · rw [H.watchers]
    exact (List.nodup_finRange _).filter _

theorem queued_ofClauses (i : Fin cs.length) :
    (ofClauses cs).Queued i ↔ ((ofClauses cs).body i).length = 1 := by
  rw [Queued, get_clauses_ofClauses, body_ofClauses, WatchedClause.ofLiterals]
  simp

theorem logged_ofClauses : Logged (ofClauses cs) := by
  have H : Registers (blank cs) _ _ := registers_ofClauses
  have hbody (i) : (ofClauses cs).body i = (blank cs).body i := by rw [body, H.clauses, body]
  refine ⟨fun i => ?_, ?_, fun i => ?_, by rw [satisfied_ofClauses]; exact List.nodup_nil⟩
  · rw [queued_ofClauses, H.queue, hbody]
    simp
  · rw [H.queue]
    exact (List.nodup_finRange _).filter _
  · rw [Known, get_clauses_ofClauses, satisfied_ofClauses]
    simp [WatchedClause.ofLiterals]

theorem timely_ofClauses : Timely (ofClauses cs) 0 := by
  have H : Registers (blank cs) _ _ := registers_ofClauses
  refine ⟨fun l => ?_, timeline_ofClauses ▸ .nil, satisfied_ofClauses ▸ .nil,
    by simp [satisfied_ofClauses], by simp [satisfied_ofClauses]⟩
  rw [isTrue, H.levels, trail_ofClauses]
  simp [blank]

/-- In a fresh formula the clauses of one literal are queued, and nothing else is to do. -/
theorem tracks_ofClauses {bodies : Fin cs.length → List (BoundedLiteral n)} (S : Agenda bodies)
    (hbodies : ∀ i, bodies i = (cs.get i).eraseDups) (hroot : S.root = [])
    (hseen : ∀ i, (bodies i).length = 1 → S.Seen i)
    (hdue : ∀ i, S.Due [] i → (bodies i).length ≤ 1) : Tracks S 0 [] (ofClauses cs) := by
  have H : Registers (blank cs) _ _ := registers_ofClauses
  have hbody (i) : (ofClauses cs).body i = bodies i := by rw [hbodies, body_ofClauses]
  have hempty : (ofClauses cs).hasEmptyClause = true ↔ ∃ i, bodies i = [] := by
    rw [H.empty]
    simp [body_blank, hbodies]
  refine ⟨placed_ofClauses, logged_ofClauses, timely_ofClauses, hbody, hempty, by simp [hroot],
    fun i hi => ?_, fun _ e he => ?_, fun hu i hi => ?_, fun _ _ i hi => .inl ⟨.inl ?_, rfl⟩⟩
  · rcases hi with hi | hi
    · exact hseen i (hbody i ▸ (queued_ofClauses i).mp hi)
    · cases hi
  · rw [timeline_ofClauses] at he
    cases he
  · have hne : bodies i ≠ [] := by
      intro h
      rw [isUnsatisfiable, hempty.mpr ⟨i, h⟩] at hu
      cases hu
    rw [trail_ofClauses] at hi
    have hle := hdue i hi
    have hpos := List.length_pos_iff.mpr hne
    exact .inl ((queued_ofClauses i).mpr (by rw [hbody]; lia))
  · exact (queued_ofClauses i).mpr (hbody i ▸ hi)

end Watched

end Dpll
