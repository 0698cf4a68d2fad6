import Dpll.Adjacency
import Dpll.Proofs.Adjacency.Clause
import Mathlib.Data.List.TakeWhile

/-! The adjacency-list formula as the outcome of its timeline. As long as levels never go down and
only open literals are assigned, every clause is the replay of the recorded literals, and the
formula is unsatisfiable up to a level exactly when the literals up to it falsify a clause
(`Adjacency.Follows`). Assigning and undoing both keep this. -/

namespace Dpll

namespace ShrinkingClause

variable {n : Nat} {j k : Level}

private theorem reinsert_reinsert (live : List (BoundedLiteral n)) (rs : List (Removal n)) :
    reinsert k (reinsert j live rs).1 (reinsert j live rs).2 = reinsert (min j k) live rs := by
  induction rs generalizing live with
  | nil => rfl
  | cons r rs ih =>
    have hmin : r.level ≤ min j k ↔ r.level ≤ j ∧ r.level ≤ k := Nat.le_min
    by_cases hj : r.level ≤ j
    · by_cases hk : r.level ≤ k
      · simp [reinsert, hmin, hj, hk]
      · have hkj : min j k = k := by lia
        rw [hkj]
        simp [reinsert, hj, hk]
    · simpa [reinsert, hmin, hj] using ih _

theorem backtrack_backtrack (c : ShrinkingClause n) :
    (c.backtrack j).backtrack k = c.backtrack (min j k) := by
  have hsat : (c.satisfiedAt.filter (· ≤ j)).filter (· ≤ k) =
      c.satisfiedAt.filter (· ≤ min j k) := by
    cases c.satisfiedAt with
    | none => rfl
    | some s =>
      have hmin : s ≤ min j k ↔ s ≤ j ∧ s ≤ k := Nat.le_min
      by_cases hj : s ≤ j <;> simp [Option.filter, hmin, hj]
  rw [backtrack, backtrack, backtrack]
  dsimp only
  rw [reinsert_reinsert, hsat]

end ShrinkingClause

namespace Adjacency

variable {n m : Nat}

/-! ### Occurrences -/

private theorem get_foldl_push (vs : List (Fin n)) (hvs : vs.Nodup) (i : Fin m)
    (table : Vector (Array (Fin m)) n) (p : Fin n) :
    ((vs.foldl (fun table v => modifyAt table v (·.push i)) table).get p).toList =
      (table.get p).toList ++ if p ∈ vs then [i] else [] := by
  induction vs generalizing table with
  | nil => simp
  | cons v vs ih =>
    obtain ⟨hv, hvs⟩ := List.nodup_cons.mp hvs
    rw [List.foldl_cons, ih hvs, get_modifyAt]
    by_cases hvp : v = p
    · subst hvp
      simp [hv]
    · simp [hvp, Ne.symm hvp]

private theorem toList_get_occurrencesOf (clauses : Vector (ShrinkingClause n) m) (p : Fin n) :
    ((occurrencesOf clauses).get p).toList =
      (List.finRange m).filter fun i => p ∈ (clauses.get i).live.map (·.position) := by
  have hfold (is : List (Fin m)) (table : Vector (Array (Fin m)) n) :
      ((is.foldl
        (fun table i => ((clauses.get i).live.map (·.position)).eraseDups.foldl
          (fun table v => modifyAt table v (·.push i)) table) table).get p).toList =
        (table.get p).toList ++ is.filter fun i => p ∈ (clauses.get i).live.map (·.position) := by
    induction is generalizing table with
    | nil => simp
    | cons i is ih =>
      rw [List.foldl_cons, ih, get_foldl_push _ (nodup_eraseDups _), List.append_assoc,
        List.filter_cons]
      by_cases hp : p ∈ (clauses.get i).live.map (·.position) <;>
        simp [List.mem_eraseDups, hp, -List.mem_map]
  rw [occurrencesOf, hfold]
  simp [Vector.get]

variable {cs : List (List (BoundedLiteral n))} {l : BoundedLiteral n} {k : Level}

theorem clauses_ofClauses (i : Fin cs.length) :
    (ofClauses cs).clauses.get i = ShrinkingClause.ofLiterals (cs.get i) := by
  have hget : (ofClauses cs).clauses[i.val] = ShrinkingClause.ofLiterals cs[i.val] := by
    simp [ofClauses]
  exact hget

theorem mem_occurrences {p : Fin n} {i : Fin cs.length} :
    i ∈ (ofClauses cs).occurrences.get p ↔ ∃ x ∈ cs.get i, x.position = p := by
  have hocc : (ofClauses cs).occurrences = occurrencesOf (ofClauses cs).clauses := rfl
  rw [← Array.mem_toList_iff, hocc, toList_get_occurrencesOf, List.mem_filter,
    clauses_ofClauses]
  simp [ShrinkingClause.ofLiterals]

theorem nodup_occurrences (p : Fin n) : ((ofClauses cs).occurrences.get p).toList.Nodup := by
  have hocc : (ofClauses cs).occurrences = occurrencesOf (ofClauses cs).clauses := rfl
  rw [hocc, toList_get_occurrencesOf]
  exact (List.nodup_finRange _).filter _

/-! ### Visits -/

section Visit

variable {f : Adjacency n m} {i : Fin m}

@[simp]
theorem occurrences_visit : (visit l k f i).occurrences = f.occurrences := by
  unfold visit
  dsimp only
  split <;> rfl

@[simp]
theorem assigned_visit : (visit l k f i).assigned = f.assigned := by
  unfold visit
  dsimp only
  split <;> rfl

@[simp]
theorem propagationSteps_visit : (visit l k f i).propagationSteps = f.propagationSteps := by
  unfold visit
  dsimp only
  split <;> rfl

theorem clauses_visit (j : Fin m) : (visit l k f i).clauses.get j =
    if i = j then (f.clauses.get j).assign l k else f.clauses.get j := by
  unfold visit
  dsimp only
  split <;> exact get_modifyAt ..

theorem unsatisfiableAt_visit : (visit l k f i).unsatisfiableAt = f.unsatisfiableAt.or
    (if ((f.clauses.get i).assign l k).isUnsatisfiable then some k else none) := by
  have hget : (modifyAt f.clauses i (·.assign l k)).get i = (f.clauses.get i).assign l k := by
    rw [get_modifyAt, if_pos rfl]
  unfold visit
  dsimp only
  rw [hget]
  split
  · rfl
  · exact Option.or_none.symm

/-- Visiting clauses shows the literal to each of them. -/
theorem clauses_foldl_visit {is : List (Fin m)} (his : is.Nodup) (j : Fin m) :
    (is.foldl (visit l k) f).clauses.get j =
      if j ∈ is then (f.clauses.get j).assign l k else f.clauses.get j := by
  induction is generalizing f with
  | nil => simp
  | cons i is ih =>
    obtain ⟨hi, his⟩ := List.nodup_cons.mp his
    rw [List.foldl_cons, ih his, clauses_visit]
    by_cases hij : i = j
    · subst hij
      simp [hi]
    · simp [hij, Ne.symm hij]

/-- The level is noted if one of the visited clauses is falsified and there is no earlier note. -/
theorem unsatisfiableAt_foldl_visit {is : List (Fin m)} (his : is.Nodup) :
    (is.foldl (visit l k) f).unsatisfiableAt = f.unsatisfiableAt.or
      (if ∃ i ∈ is, ((f.clauses.get i).assign l k).isUnsatisfiable then some k else none) := by
  induction is generalizing f with
  | nil => simp
  | cons i is ih =>
    obtain ⟨hi, his⟩ := List.nodup_cons.mp his
    have hrest : (∃ j ∈ is, (((visit l k f i).clauses.get j).assign l k).isUnsatisfiable) ↔
        ∃ j ∈ is, ((f.clauses.get j).assign l k).isUnsatisfiable := by
      refine exists_congr fun j => and_congr_right fun hj => ?_
      rw [clauses_visit, if_neg fun hij : i = j => hi (hij ▸ hj)]
    rw [List.foldl_cons, ih his, unsatisfiableAt_visit, Option.or_assoc]
    congr 1
    by_cases hu : ((f.clauses.get i).assign l k).isUnsatisfiable = true <;>
      simp [hu, hrest]

theorem foldl_visit_frame (is : List (Fin m)) :
    (is.foldl (visit l k) f).occurrences = f.occurrences ∧
      (is.foldl (visit l k) f).assigned = f.assigned ∧
      (is.foldl (visit l k) f).propagationSteps = f.propagationSteps := by
  induction is generalizing f with
  | nil => exact ⟨rfl, rfl, rfl⟩
  | cons i is ih => simpa using ih (f := visit l k f i)

theorem assigned_assign : (f.assign l k).assigned = f.assigned.record l k := by
  rw [Adjacency.assign, ← Array.foldl_toList, (foldl_visit_frame _).2.1]

theorem occurrences_assign : (f.assign l k).occurrences = f.occurrences := by
  rw [Adjacency.assign, ← Array.foldl_toList, (foldl_visit_frame _).1]

theorem propagationSteps_assign : (f.assign l k).propagationSteps = f.propagationSteps := by
  rw [Adjacency.assign, ← Array.foldl_toList, (foldl_visit_frame _).2.2]

theorem clauses_assign (h : (f.occurrences.get l.position).toList.Nodup) (j : Fin m) :
    (f.assign l k).clauses.get j =
      if j ∈ (f.occurrences.get l.position).toList then (f.clauses.get j).assign l k
      else f.clauses.get j := by
  rw [Adjacency.assign, ← Array.foldl_toList, clauses_foldl_visit h]

theorem unsatisfiableAt_assign (h : (f.occurrences.get l.position).toList.Nodup) :
    (f.assign l k).unsatisfiableAt = f.unsatisfiableAt.or
      (if ∃ i ∈ (f.occurrences.get l.position).toList, ((f.clauses.get i).assign l k).isUnsatisfiable
        then some k else none) := by
  rw [Adjacency.assign, ← Array.foldl_toList, unsatisfiableAt_foldl_visit h]

end Visit

theorem get_foldl_backtrack (ls : List (BoundedLiteral n))
    (occ : Vector (Array (Fin m)) n) (clauses : Vector (ShrinkingClause n) m) (j : Fin m) :
    (ls.foldl (fun clauses l => (occ.get l.position).foldl
      (fun clauses i => modifyAt clauses i (·.backtrack k)) clauses) clauses).get j =
      if ∃ l ∈ ls, j ∈ occ.get l.position then (clauses.get j).backtrack k else clauses.get j := by
  have hinner (is : List (Fin m)) (clauses : Vector (ShrinkingClause n) m) :
      (is.foldl (fun clauses i => modifyAt clauses i (·.backtrack k)) clauses).get j =
        if j ∈ is then (clauses.get j).backtrack k else clauses.get j := by
    induction is generalizing clauses with
    | nil => simp
    | cons i is ih =>
      rw [List.foldl_cons, ih, get_modifyAt]
      by_cases hij : i = j
      · subst hij
        simp [ShrinkingClause.backtrack_backtrack]
      · simp [hij, Ne.symm hij]
  induction ls generalizing clauses with
  | nil => simp
  | cons l ls ih =>
    rw [List.foldl_cons, ih, ← Array.foldl_toList, hinner]
    by_cases hl : j ∈ occ.get l.position
    · by_cases hrest : ∃ x ∈ ls, j ∈ occ.get x.position <;>
        simp [hl, hrest, ShrinkingClause.backtrack_backtrack]
    · simp [hl]

/-- Undoing visits the clauses that mention a literal it forgets. -/
theorem clauses_backtrack {f : Adjacency n m} (j : Fin m) : (f.backtrack k).clauses.get j =
    if ∃ l ∈ f.assigned.above k, j ∈ f.occurrences.get l.position
    then (f.clauses.get j).backtrack k else f.clauses.get j := get_foldl_backtrack ..

/-! ### The formula and its timeline -/

variable {f : Adjacency n cs.length} {c : Level}

/-- The literals of the formula, newest first. -/
def trail (f : Adjacency n m) : Trail n := Timeline.literals f.assigned.entries

/-- The formula is determined by the literals recorded in it, none of them above level `c`. -/
structure Follows (cs : List (List (BoundedLiteral n))) (f : Adjacency n cs.length) (c : Level) :
    Prop where
  occurrences : f.occurrences = (ofClauses cs).occurrences
  clauses : ∀ i : Fin cs.length,
    f.clauses.get i = (ShrinkingClause.ofLiterals (cs.get i)).replay f.assigned.entries
  ordered : Timeline.Ordered f.assigned.entries c
  unsatisfiable : ∀ k, (∃ s ≤ k, f.unsatisfiableAt = some s) ↔
    ∃ d ∈ cs, (Timeline.upTo f.assigned.entries k).Falsifies d

namespace Follows

theorem ofClauses : Follows cs (ofClauses cs) 0 where
  occurrences := rfl
  clauses := clauses_ofClauses
  ordered := .nil
  unsatisfiable := by
    intro k
    have hany : ((Adjacency.ofClauses cs).clauses.any (·.isUnsatisfiable)) = true ↔ [] ∈ cs := by
      rw [Vector.any_eq_true, List.mem_iff_getElem]
      refine exists_congr fun i => exists_congr fun hi => ?_
      have hget : (Adjacency.ofClauses cs).clauses[i] = ShrinkingClause.ofLiterals cs[i] :=
        clauses_ofClauses ⟨i, hi⟩
      rw [hget]
      cases hc : cs[i] <;> simp [ShrinkingClause.isUnsatisfiable, ShrinkingClause.ofLiterals,
        ShrinkingClause.isSatisfied, List.eraseDups_cons]
    have hnote : (Adjacency.ofClauses cs).unsatisfiableAt =
        if (Adjacency.ofClauses cs).clauses.any (·.isUnsatisfiable) then some 0 else none := rfl
    have hempty : (∃ d ∈ cs, Trail.Falsifies (Timeline.upTo ([] : Timeline n) k) d) ↔ [] ∈ cs := by
      constructor
      · rintro ⟨d, hd, hf⟩
        cases d with
        | nil => exact hd
        | cons x d => exact absurd (hf x List.mem_cons_self) (by simp [Timeline.upTo, Timeline.literals])
      · exact fun h => ⟨[], h, by simp [Trail.Falsifies]⟩
    rw [show (Adjacency.ofClauses cs).assigned.entries = [] from rfl, hempty, ← hany, hnote]
    split
    · rename_i h
      simp [h]
    · rename_i h
      simp [h]

theorem record_entries (h : Follows cs f c) (hck : c ≤ k) :
    (f.assigned.record l k).entries = (k, l) :: f.assigned.entries := by
  have hall (e) (he : e ∈ f.assigned.entries) : decide (k < e.1) = false :=
    decide_eq_false (Nat.not_lt_of_le (Nat.le_trans (h.ordered.le e he) hck))
  rw [LevelTrail.record]
  cases hE : f.assigned.entries with
  | nil => rfl
  | cons e E =>
    have he := hall e (by simp [hE])
    simp [he]

/-- A clause falsified by the new literal mentions it. -/
private theorem exists_occurrence_of_falsifies {A : Trail n} {d : List (BoundedLiteral n)}
    (h : Trail.Falsifies (l :: A) d) (hA : ¬A.Falsifies d) : ∃ x ∈ d, x.position = l.position := by
  simp only [Trail.Falsifies, not_forall] at hA
  obtain ⟨x, hx, hneg⟩ := hA
  rcases List.mem_cons.mp (h x hx) with hxl | hxA
  · exact ⟨x, hx, by rw [← hxl, BoundedLiteral.position_neg]⟩
  · exact absurd hxA hneg

/-- The formula is unsatisfiable when its literals falsify a clause. -/
theorem unsatisfiableAt_iff (h : Follows cs f c) :
    (∃ s, f.unsatisfiableAt = some s) ↔ ∃ d ∈ cs, f.trail.Falsifies d := by
  rw [trail, ← h.ordered.literals_eq_upTo (Nat.le_refl c), ← h.unsatisfiable c]
  refine ⟨fun ⟨s, hs⟩ => ?_, fun ⟨s, _, hs⟩ => ⟨s, hs⟩⟩
  obtain ⟨d, hd, hf⟩ := (h.unsatisfiable s).mp ⟨s, Nat.le_refl s, hs⟩
  refine (h.unsatisfiable c).mpr ⟨d, hd, ?_⟩
  rw [h.ordered.literals_eq_upTo (Nat.le_refl c)]
  exact hf.mono Timeline.upTo_subset

theorem le_of_unsatisfiableAt (h : Follows cs f c) {s : Level} (hs : f.unsatisfiableAt = some s) :
    s ≤ c := by
  have hc := h.unsatisfiableAt_iff.mp ⟨s, hs⟩
  rw [trail, ← h.ordered.literals_eq_upTo (Nat.le_refl c), ← h.unsatisfiable c] at hc
  obtain ⟨s', hs', hsome⟩ := hc
  rw [hs, Option.some.injEq] at hsome
  exact hsome ▸ hs'

section Assign

variable (h : Follows cs f c) (hck : c ≤ k) (hl : f.trail.Open l)

include h

theorem mem_occurrences_iff (i : Fin cs.length) :
    i ∈ (f.occurrences.get l.position).toList ↔ ∃ x ∈ cs.get i, x.position = l.position := by
  rw [Array.mem_toList_iff, h.occurrences, mem_occurrences]

theorem nodup_occurrences_toList : (f.occurrences.get l.position).toList.Nodup :=
  h.occurrences ▸ nodup_occurrences _

theorem clause_assign (i : Fin cs.length) : (f.clauses.get i).assign l k =
    (ShrinkingClause.ofLiterals (cs.get i)).replay ((k, l) :: f.assigned.entries) := by
  rw [h.clauses i, ShrinkingClause.replay_cons]

include hck

theorem entries_assign : (f.assign l k).assigned.entries = (k, l) :: f.assigned.entries := by
  rw [assigned_assign]
  exact h.record_entries hck

theorem trail_assign : (f.assign l k).trail = l :: f.trail :=
  congrArg Timeline.literals (h.entries_assign hck)

include hl

theorem unsatisfiableAt_assign {s : Level} : (f.assign l k).unsatisfiableAt = some s ↔
    f.unsatisfiableAt = some s ∨
      f.unsatisfiableAt = none ∧ s = k ∧ ∃ d ∈ cs, Trail.Falsifies (l :: f.trail) d := by
  have hord := h.ordered.cons hck hl
  rw [Adjacency.unsatisfiableAt_assign h.nodup_occurrences_toList]
  cases hu : f.unsatisfiableAt with
  | some t => simp
  | none =>
    have hold (d) (hd : d ∈ cs) : ¬f.trail.Falsifies d := fun hf => by
      obtain ⟨t, ht⟩ := h.unsatisfiableAt_iff.mpr ⟨d, hd, hf⟩
      simp [hu] at ht
    have hnew : (∃ i ∈ (f.occurrences.get l.position).toList,
        ((f.clauses.get i).assign l k).isUnsatisfiable = true) ↔
        ∃ d ∈ cs, Trail.Falsifies (l :: f.trail) d := by
      constructor
      · rintro ⟨i, _, hi⟩
        rw [h.clause_assign, ShrinkingClause.isUnsatisfiable_replay hord.consistent] at hi
        exact ⟨cs.get i, List.get_mem cs i, hi⟩
      · rintro ⟨d, hd, hf⟩
        obtain ⟨i, hi, rfl⟩ := List.mem_iff_getElem.mp hd
        refine ⟨⟨i, hi⟩, (h.mem_occurrences_iff _).mpr ?_, ?_⟩
        · exact exists_occurrence_of_falsifies hf (hold _ hd)
        · rw [h.clause_assign, ShrinkingClause.isUnsatisfiable_replay hord.consistent]
          exact hf
    by_cases hd : ∃ d ∈ cs, Trail.Falsifies (l :: f.trail) d
    · rw [if_pos (hnew.mpr hd)]
      simp [hd, eq_comm]
    · rw [if_neg (mt hnew.mp hd)]
      simp [hd]

/-- Assigning an open literal at the current level or above puts it on top of the timeline. -/
theorem assign : Follows cs (f.assign l k) k := by
  have hentries := h.entries_assign (l := l) hck
  refine ⟨?_, fun i => ?_, hentries ▸ h.ordered.cons hck hl, fun j => ?_⟩
  · exact occurrences_assign.trans h.occurrences
  · rw [hentries, clauses_assign h.nodup_occurrences_toList]
    by_cases hi : ∃ x ∈ cs.get i, x.position = l.position
    · rw [if_pos ((h.mem_occurrences_iff i).mpr hi)]
      exact h.clause_assign i
    · rw [if_neg (mt (h.mem_occurrences_iff i).mp hi), ShrinkingClause.replay_cons_eq_self
        fun x hx hxl => hi ⟨x, hx, hxl⟩]
      exact h.clauses i
  · simp only [h.unsatisfiableAt_assign hck hl, hentries]
    by_cases hj : j < k
    · -- the note of the new literal lies above `j`, and so does the literal
      rw [Timeline.upTo_cons_of_lt hj, ← h.unsatisfiable j]
      refine exists_congr fun s => and_congr_right fun hs => or_iff_left ?_
      rintro ⟨_, rfl, _⟩
      exact Nat.not_lt_of_le hs hj
    · have hkj : k ≤ j := Nat.le_of_not_lt hj
      rw [(h.ordered.cons hck hl).literals_eq_upTo hkj, Timeline.literals_cons]
      constructor
      · rintro ⟨s, _, hs | ⟨_, _, hd⟩⟩
        · obtain ⟨d, hd, hf⟩ := h.unsatisfiableAt_iff.mp ⟨s, hs⟩
          exact ⟨d, hd, hf.mono (List.subset_cons_self _ _)⟩
        · exact hd
      · intro hd
        cases hu : f.unsatisfiableAt with
        | some s =>
          exact ⟨s, Nat.le_trans (h.le_of_unsatisfiableAt hu) (Nat.le_trans hck hkj), .inl rfl⟩
        | none => exact ⟨k, hkj, .inr ⟨rfl, rfl, hd⟩⟩

end Assign

/-! ### Undoing -/

/-- A clause that mentions none of the newer literals is as before them. -/
private theorem replay_append_eq {E F : Timeline n} {ls : List (BoundedLiteral n)}
    (hE : ∀ e ∈ E, ∀ x ∈ ls, x.position ≠ e.2.position) :
    (ShrinkingClause.ofLiterals ls).replay (E ++ F) = (ShrinkingClause.ofLiterals ls).replay F := by
  induction E with
  | nil => rfl
  | cons e E ih =>
    rw [List.cons_append, ShrinkingClause.replay_cons_eq_self (hE e List.mem_cons_self)]
    exact ih fun x hx => hE x (List.mem_cons_of_mem e hx)

theorem entries_backtrack (h : Follows cs f c) :
    (f.backtrack k).assigned.entries = f.assigned.entries.filter (·.1 ≤ k) :=
  Timeline.dropWhile_eq_filter h.ordered.sorted

/-- Undoing to a level keeps the literals up to it. -/
theorem backtrack (h : Follows cs f c) : Follows cs (f.backtrack k) (min c k) := by
  have hentries := h.entries_backtrack (k := k)
  refine ⟨h.occurrences, fun i => ?_, hentries ▸ h.ordered.filter, fun j => ?_⟩
  · have hsplit : f.assigned.entries.takeWhile (k < ·.1) ++ f.assigned.entries.filter (·.1 ≤ k) =
        f.assigned.entries := by
      rw [← Timeline.dropWhile_eq_filter h.ordered.sorted, List.takeWhile_append_dropWhile]
    have hnew (e) (he : e ∈ f.assigned.entries.takeWhile (k < ·.1)) : k < e.1 := by
      simpa using List.mem_takeWhile_imp he
    have hold (e) (he : e ∈ f.assigned.entries.filter (·.1 ≤ k)) : e.1 ≤ k := by
      simpa using (List.mem_filter.mp he).2
    have hclause := h.clauses i
    rw [← hsplit] at hclause
    rw [hentries, clauses_backtrack]
    split
    · rw [hclause, ShrinkingClause.backtrack_replay hnew hold]
    · rename_i hi
      rw [hclause, replay_append_eq]
      intro e he x hx hxe
      refine hi ⟨e.2, List.mem_map.mpr ⟨e, he, rfl⟩, ?_⟩
      rw [h.occurrences, mem_occurrences]
      exact ⟨x, hx, hxe⟩
  · have hfilter (s : Level) : (f.backtrack k).unsatisfiableAt = some s ↔
        f.unsatisfiableAt = some s ∧ s ≤ k := by
      simp [Adjacency.backtrack]
    rw [hentries, Timeline.upTo_filter, ← h.unsatisfiable]
    refine exists_congr fun s => ?_
    rw [hfilter, Nat.le_min, and_assoc]
    exact and_congr_right fun _ => and_comm

end Follows

end Adjacency

end Dpll
