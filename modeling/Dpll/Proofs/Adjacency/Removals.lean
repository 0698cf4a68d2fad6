import Dpll.Proofs.Adjacency.Undoing

/-! What shrinking clauses keep, in whatever order the levels of the calls come. Putting the removals
of a clause back, newest first, gives the clause as it was written (`ShrinkingClause.restored?`): a
removal counts positions in the list that it shrank, and everything done to that list later is undone
before it. Undoing visits only the clauses of forgotten literals, yet it reaches every clause it could
change (`Adjacency.Restorable.clauses_backtrack`). -/

namespace Dpll

variable {n : Nat}

namespace ShrinkingClause

variable {c : ShrinkingClause n} {l : BoundedLiteral n} {j k : Level}
  {live ls : List (BoundedLiteral n)} {rs : List (Removal n)}

/-- A live list with the removals put back, newest first. There is none if a position lies outside
the list at that time. -/
def putBack? (live : List (BoundedLiteral n)) : List (Removal n) → Option (List (BoundedLiteral n))
  | [] => some live
  | r :: rs =>
    if r.position ≤ live.length then putBack? (live.insertIdx r.position r.literal) rs else none

/-- The clause with all of its removals put back. -/
def restored? (c : ShrinkingClause n) : Option (List (BoundedLiteral n)) := putBack? c.live c.removals

theorem putBack?_cons_eq_some {r : Removal n} : putBack? live (r :: rs) = some ls ↔
    r.position ≤ live.length ∧ putBack? (live.insertIdx r.position r.literal) rs = some ls := by
  rw [putBack?]
  split <;> simp [*]

theorem sublist_of_putBack? (h : putBack? live rs = some ls) : live.Sublist ls := by
  induction rs generalizing live with
  | nil => exact Option.some.inj h ▸ List.Sublist.refl live
  | cons r rs ih =>
    obtain ⟨_, h⟩ := putBack?_cons_eq_some.mp h
    exact (List.sublist_insertIdx live r.position r.literal).trans (ih h)

theorem perm_of_putBack? (h : putBack? live rs = some ls) :
    (live ++ rs.map (·.literal)).Perm ls := by
  induction rs generalizing live with
  | nil => simpa using List.Perm.of_eq (Option.some.inj h)
  | cons r rs ih =>
    obtain ⟨hr, h⟩ := putBack?_cons_eq_some.mp h
    have hinsert := List.perm_insertIdx r.literal live hr
    calc (live ++ r.literal :: rs.map (·.literal)).Perm (r.literal :: live ++ rs.map (·.literal)) :=
        List.perm_middle
      List.Perm _ (live.insertIdx r.position r.literal ++ rs.map (·.literal)) :=
        hinsert.symm.append_right _
      List.Perm _ ls := ih h

theorem putBack?_reinsert (h : putBack? live rs = some ls) :
    putBack? (reinsert k live rs).1 (reinsert k live rs).2 = some ls := by
  induction rs generalizing live with
  | nil => exact h
  | cons r rs ih =>
    rw [reinsert]
    split
    · exact h
    · exact ih (putBack?_cons_eq_some.mp h).2

/-! ### One clause -/

/-- The position of a removal is the one the literal had. -/
theorem restored?_assign : (c.assign l k).restored? = c.restored? := by
  rcases c.assign_cases l k with ⟨_, _, heq⟩ | ⟨p, hp, heq⟩ | heq
  · rw [heq, restored?, restored?]
  · obtain ⟨hlt, hget, _⟩ := List.idxOf?_eq_some_iff.mp hp
    have hle : p ≤ (c.live.eraseIdx p).length := by
      rw [List.length_eraseIdx_of_lt hlt]
      exact Nat.le_sub_one_of_lt hlt
    rw [heq, restored?, putBack?, if_pos hle, ← hget, List.insertIdx_eraseIdx_getElem hlt, restored?]
  · rw [heq]

theorem restored?_backtrack (h : c.restored? = some ls) : (c.backtrack k).restored? = some ls :=
  putBack?_reinsert h

theorem level_of_head?_reinsert {r : Removal n}
    (h : (reinsert k live rs).2.head? = some r) : r.level ≤ k := by
  induction rs generalizing live with
  | nil => simp [reinsert] at h
  | cons r' rs ih =>
    rw [reinsert] at h
    split at h
    · rename_i hle
      exact Option.some.inj h ▸ hle
    · exact ih h

/-- Undoing stops at a removal that does not lie above its level. -/
theorem level_backtrack_le (c : ShrinkingClause n) :
    (∀ s, (c.backtrack k).satisfiedAt = some s → s ≤ k) ∧
      ∀ r, (c.backtrack k).removals.head? = some r → r.level ≤ k := by
  refine ⟨fun s hs => ?_, fun r hr => level_of_head?_reinsert hr⟩
  have hs : c.satisfiedAt = some s ∧ s ≤ k := by simpa [backtrack] using hs
  exact hs.2

/-- Where undoing to two levels does the same, it does so after a literal was shown at or below
both. -/
theorem backtrack_assign_congr {s : Level} (hj : s ≤ j) (hk : s ≤ k)
    (h : c.backtrack k = c.backtrack j) : (c.assign l s).backtrack k = (c.assign l s).backtrack j := by
  simp only [backtrack, mk.injEq] at h ⊢
  rcases c.assign_cases l s with ⟨_, _, heq⟩ | ⟨p, _, heq⟩ | heq <;> rw [heq]
  · simp [h, hj, hk, Option.filter]
  · simp [reinsert, h, hj, hk]
  · exact h

end ShrinkingClause

namespace Adjacency

variable {cs : List (List (BoundedLiteral n))} {f : Adjacency n cs.length} {k : Level}
  {l : BoundedLiteral n}

/-- Every clause of the formula can be put back as it is written in `cs`, and undoing to a level
changes it no more than undoing to a higher one does, unless it mentions a literal recorded in
between. -/
structure Restorable (cs : List (List (BoundedLiteral n))) (f : Adjacency n cs.length) : Prop where
  occurrences : f.occurrences = (ofClauses cs).occurrences
  sorted : f.assigned.entries.Pairwise fun newer older => older.1 ≤ newer.1
  restored : ∀ i, (f.clauses.get i).restored? = some (cs.get i).eraseDups
  apart : ∀ i k j, k ≤ j →
    (∀ e ∈ f.assigned.entries, k < e.1 → e.1 ≤ j → i ∉ f.occurrences.get e.2.position) →
    (f.clauses.get i).backtrack k = (f.clauses.get i).backtrack j

namespace Restorable

theorem ofClauses : Restorable cs (ofClauses cs) where
  occurrences := rfl
  sorted := .nil
  restored i := by rw [clauses_ofClauses]; rfl
  apart i k j _ _ := by rw [clauses_ofClauses]; rfl

theorem assign (h : Restorable cs f) : Restorable cs (f.assign l k) := by
  have hnodup : (f.occurrences.get l.position).toList.Nodup := h.occurrences ▸ nodup_occurrences _
  refine ⟨occurrences_assign.trans h.occurrences, ?_, fun i => ?_, fun i a b hab hno => ?_⟩
  · rw [assigned_assign]
    exact LevelTrail.sorted_record h.sorted
  · rw [clauses_assign hnodup]
    split
    · exact ShrinkingClause.restored?_assign.trans (h.restored i)
    · exact h.restored i
  · rw [assigned_assign, occurrences_assign] at hno
    have hold := h.apart i a b hab fun e he => hno e (LevelTrail.mem_record.mpr (.inr he))
    rw [clauses_assign hnodup]
    split
    · -- the literal recorded at `k` mentions the clause, so `k` does not lie between the levels
      rename_i hi
      rcases Nat.lt_or_ge b k with hbk | hkb
      · rw [ShrinkingClause.backtrack_assign (Nat.lt_of_le_of_lt hab hbk),
          ShrinkingClause.backtrack_assign hbk]
        exact hold
      · have hka : k ≤ a := by
          by_contra hak
          exact hno (k, l) (LevelTrail.mem_record.mpr (.inl rfl)) (Nat.lt_of_not_le hak) hkb
            (Array.mem_toList_iff.mp hi)
        exact ShrinkingClause.backtrack_assign_congr hkb hka hold
    · exact hold

/-- Noting a step changes nothing in the clauses. -/
theorem of_propagationSteps (h : Restorable cs f) (steps : Nat) :
    Restorable cs { f with propagationSteps := steps } :=
  ⟨h.occurrences, h.sorted, h.restored, h.apart⟩

theorem propagateFor (h : Restorable cs f) (rounds : Nat) :
    Restorable cs (f.propagateFor k rounds) := by
  fun_induction Adjacency.propagateFor k rounds f with
  | case1 | case2 | case3 => exact h
  | case4 rounds f _ l _ f' ih => exact ih (h.assign.of_propagationSteps _)

/-- Undoing brings every clause back, also those that it does not visit. -/
theorem clauses_backtrack (h : Restorable cs f) (i : Fin cs.length) :
    (f.backtrack k).clauses.get i = (f.clauses.get i).backtrack k := by
  rw [Adjacency.clauses_backtrack]
  split
  · rfl
  · rename_i hunseen
    obtain ⟨j, hkj, hself⟩ := (f.clauses.get i).exists_backtrack_eq_self k
    rw [h.apart i k j hkj, hself]
    exact fun e he hk _ hi => hunseen ⟨e.2, LevelTrail.mem_above h.sorted he hk, hi⟩

theorem entries_backtrack (h : Restorable cs f) :
    (f.backtrack k).assigned.entries = f.assigned.entries.filter (·.1 ≤ k) :=
  Timeline.dropWhile_eq_filter h.sorted

theorem backtrack (h : Restorable cs f) : Restorable cs (f.backtrack k) := by
  refine ⟨h.occurrences, ?_, fun i => ?_, fun i a b hab hno => ?_⟩
  · rw [h.entries_backtrack]
    exact h.sorted.filter _
  · rw [h.clauses_backtrack]
    exact ShrinkingClause.restored?_backtrack (h.restored i)
  · rw [h.entries_backtrack] at hno
    rw [h.clauses_backtrack, ShrinkingClause.backtrack_backtrack, ShrinkingClause.backtrack_backtrack]
    refine h.apart i _ _ (by lia) fun e he ha hb => hno e (List.mem_filter.mpr ⟨he, ?_⟩) ?_ ?_
    · exact decide_eq_true (Nat.le_trans hb (Nat.min_le_left k b))
    · lia
    · exact Nat.le_trans hb (Nat.min_le_right k b)

theorem after (ms : Moves n) : Restorable cs (ms.after (Adjacency.ofClauses cs)) := by
  refine Moves.after_induction .ofClauses ?assign ?propagate ?undo
  case assign => exact fun _ _ _ _ H => H.assign
  case propagate => exact fun _ _ _ H => H.propagateFor _
  case undo => exact fun _ _ _ H => H.backtrack

end Restorable

/-- Whatever was called, the removals of a clause can be put back and give its distinct literals in
their order of writing. After an undoing nothing above its level is next to be undone in any clause,
though only those were touched that mention a literal recorded above the level. -/
theorem restored_after (cs : List (List (BoundedLiteral n))) (ms : Moves n) :
    let f := ms.after (ofClauses cs)
    (∀ i, let c := f.clauses.get i
      c.restored? = some (cs.get i).eraseDups ∧ c.live.Sublist (cs.get i).eraseDups ∧
        (c.live ++ c.removals.map (·.literal)).Perm (cs.get i).eraseDups) ∧
    ∀ k i, let c := (Backtrackable.backtrack f k).clauses.get i
      (∀ s, c.satisfiedAt = some s → s ≤ k) ∧ (∀ r, c.removals.head? = some r → r.level ≤ k) ∧
        ((∀ l ∈ f.assigned.above k, ∀ x ∈ cs.get i, x.position ≠ l.position) →
          c = f.clauses.get i) := by
  intro f
  have h : Restorable cs f := .after ms
  refine ⟨fun i => ?_, fun k i => ?_⟩
  · have hi := h.restored i
    exact ⟨hi, ShrinkingClause.sublist_of_putBack? hi, ShrinkingClause.perm_of_putBack? hi⟩
  · have hi : (Backtrackable.backtrack f k).clauses.get i = (f.clauses.get i).backtrack k :=
      h.clauses_backtrack i
    obtain ⟨hsatisfied, hremoved⟩ := (f.clauses.get i).level_backtrack_le (k := k)
    refine ⟨hi ▸ hsatisfied, hi ▸ hremoved, fun hunseen => ?_⟩
    refine (Adjacency.clauses_backtrack i).trans (if_neg ?_)
    rintro ⟨l, hl, hocc⟩
    rw [h.occurrences, mem_occurrences] at hocc
    obtain ⟨x, hx, hxl⟩ := hocc
    exact hunseen l hl x hx hxl

/-- A removal of level 3 waits behind one of level 1 and comes back with it. -/
example :
    let x : BoundedLiteral 3 := ⟨⟨0⟩, by decide⟩
    let y : BoundedLiteral 3 := ⟨⟨2⟩, by decide⟩
    let z : BoundedLiteral 3 := ⟨⟨4⟩, by decide⟩
    let f := Moves.after (ofClauses [[x, y, z]]) [.assign (-y) 1, .assign (-x) 3]
    ((f.backtrack 2).clauses.get 0).live = [z] ∧
      (((f.backtrack 2).backtrack 0).clauses.get 0).live = [x, y, z] := by
  decide +kernel

end Adjacency

end Dpll
