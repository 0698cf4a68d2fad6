import Dpll.Proofs.Watched.Replacement

/-! What can be read off a watched formula, and what each of its primitive operations changes. The
body of a clause never changes; `Watched.Maintains` collects what watch maintenance leaves alone
and what it may add while a literal is being made true. -/

namespace Dpll

namespace Watched

variable {n m : Nat} {f g : Watched n m} {w u : Watch} {l x : BoundedLiteral n} {i j : Fin m}
  {k : Level}

/-- The distinct literals of a clause. -/
def body (f : Watched n m) (i : Fin m) : List (BoundedLiteral n) := (f.clauses.get i).literals.toList

/-- The literal that a clause watches. -/
def watched (f : Watched n m) (w : Watch) (i : Fin m) : Option (BoundedLiteral n) :=
  (f.clauses.get i).watched w

/-- The clause is known to be satisfied. -/
def Known (f : Watched n m) (i : Fin m) : Prop := (f.clauses.get i).knownSatisfied = true

/-- The clause is in the queue. -/
def Queued (f : Watched n m) (i : Fin m) : Prop := (f.clauses.get i).queued = true

theorem liveClauses_eq (f : Watched n m) : f.liveClauses =
    ((List.finRange m).filter fun i => !(f.clauses.get i).knownSatisfied).map
      fun i => (f.body i).filter f.isOpen := by
  rw [liveClauses, toList_eq_map_get, List.filter_map, List.map_map]
  rfl

theorem mem_liveClauses {d : List (BoundedLiteral n)} :
    d ∈ f.liveClauses ↔ ∃ i, ¬f.Known i ∧ (f.body i).filter f.isOpen = d := by
  simp [liveClauses_eq, Known]

/-! ### Primitive operations -/

theorem get_clauses_markSatisfied : (f.markSatisfied i k).clauses.get j =
    if i = j then { f.clauses.get j with knownSatisfied := true } else f.clauses.get j := by
  unfold markSatisfied
  split
  · rename_i h
    split
    · rename_i hij
      subst hij
      rw [← h]
    · rfl
  · exact get_modifyAt ..

theorem satisfied_markSatisfied : (f.markSatisfied i k).satisfied =
    if (f.clauses.get i).knownSatisfied then f.satisfied else (i, k) :: f.satisfied := by
  unfold markSatisfied
  split <;> rfl

theorem get_clauses_enqueue : (f.enqueue i).clauses.get j =
    if i = j then { f.clauses.get j with queued := true } else f.clauses.get j := by
  unfold enqueue
  split
  · rename_i h
    split
    · rename_i hij
      subst hij
      rw [← h]
    · rfl
  · exact get_modifyAt ..

theorem queue_enqueue : (f.enqueue i).queue.toList =
    if (f.clauses.get i).queued then f.queue.toList else f.queue.toList ++ [i] := by
  unfold enqueue
  split
  · rfl
  · exact Queue.toList_push ..

theorem watchers_modifyWatchers (h : Array (Fin m) → Array (Fin m)) :
    (f.modifyWatchers w l h).watchers u x =
      if w = u ∧ l = x then h (f.watchers u x) else f.watchers u x := by
  cases w <;> cases u <;> simp [modifyWatchers, watchers, LiteralTable.get_modify]

end Watched

end Dpll
