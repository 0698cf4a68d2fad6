import Dpll.Adjacency.Clause
import Dpll.Proofs.Trail

/-! A shrinking clause as the outcome of a timeline. `ShrinkingClause.replay` shows a clause the
literals of a timeline, oldest first. Undoing forgets whatever was shown above its level
(`backtrack_replay`), so as long as levels never go down the clause is a function of the
timeline; and that function says which literals are true and false (`isSatisfied_replay`,
`live_replay`). -/

namespace Dpll

namespace ShrinkingClause

variable {n : Nat} {c : ShrinkingClause n} {l : BoundedLiteral n} {j k : Level}
  {E F : Timeline n} {ls : List (BoundedLiteral n)}

/-- Shows the literals of a timeline to a clause, oldest first. -/
def replay (c : ShrinkingClause n) (E : Timeline n) : ShrinkingClause n :=
  E.foldr (fun e c => c.assign e.2 e.1) c

theorem replay_cons : c.replay ((k, l) :: E) = (c.replay E).assign l k := rfl

/-! ### One literal -/

theorem assign_of_mem (hs : c.isSatisfied = false) (hl : l ∈ c.live) :
    c.assign l k = { c with satisfiedAt := some k } := by
  rw [assign, if_pos (by simp [hs, hl])]

theorem assign_of_idxOf? {p : Nat} (h : ¬(c.isSatisfied = false ∧ l ∈ c.live))
    (hp : c.live.idxOf? (-l) = some p) :
    c.assign l k =
      { c with live := c.live.eraseIdx p, removals := ⟨k, p, -l⟩ :: c.removals } := by
  rw [assign, if_neg (by simpa using h), hp]

theorem assign_of_not_mem (h : ¬(c.isSatisfied = false ∧ l ∈ c.live)) (hl : -l ∉ c.live) :
    c.assign l k = c := by
  rw [assign, if_neg (by simpa using h), List.idxOf?_eq_none_iff.mpr hl]

/-- Showing a literal satisfies the clause, takes one literal out of it, or does nothing. -/
theorem assign_cases (c : ShrinkingClause n) (l : BoundedLiteral n) (k : Level) :
    (c.isSatisfied = false ∧ l ∈ c.live ∧ c.assign l k = { c with satisfiedAt := some k }) ∨
    (∃ p, c.live.idxOf? (-l) = some p ∧ c.assign l k =
      { c with live := c.live.eraseIdx p, removals := ⟨k, p, -l⟩ :: c.removals }) ∨
    c.assign l k = c := by
  by_cases h : c.isSatisfied = false ∧ l ∈ c.live
  · exact .inl ⟨h.1, h.2, assign_of_mem h.1 h.2⟩
  · cases hp : c.live.idxOf? (-l) with
    | some p => exact .inr (.inl ⟨p, rfl, assign_of_idxOf? h hp⟩)
    | none => exact .inr (.inr (assign_of_not_mem h (List.idxOf?_eq_none_iff.mp hp)))

theorem assign_eq_self (hl : l ∉ c.live) (hn : -l ∉ c.live) : c.assign l k = c :=
  assign_of_not_mem (fun h => hl h.2) hn

theorem isSatisfied_assign : (c.assign l k).isSatisfied = true ↔
    c.isSatisfied = true ∨ l ∈ c.live := by
  by_cases h : c.isSatisfied = false ∧ l ∈ c.live
  · simp [assign_of_mem h.1 h.2, isSatisfied, h.2]
  · have hsame : (c.assign l k).isSatisfied = c.isSatisfied := by
      cases hp : c.live.idxOf? (-l) with
      | some p => rw [assign_of_idxOf? h hp, isSatisfied, isSatisfied]
      | none => rw [assign_of_not_mem h (List.idxOf?_eq_none_iff.mp hp)]
    rw [hsame]
    cases hs : c.isSatisfied
    · simpa [hs] using h
    · simp

theorem live_assign (h : ¬(c.isSatisfied = false ∧ l ∈ c.live)) :
    (c.assign l k).live = c.live.erase (-l) := by
  rw [List.erase_eq_eraseIdx]
  cases hp : c.live.idxOf? (-l) with
  | some p => rw [assign_of_idxOf? h hp]
  | none => rw [assign_of_not_mem h (List.idxOf?_eq_none_iff.mp hp)]

theorem live_assign_subset : (c.assign l k).live ⊆ c.live := by
  by_cases h : c.isSatisfied = false ∧ l ∈ c.live
  · rw [assign_of_mem h.1 h.2]
    exact List.Subset.refl _
  · rw [live_assign h]
    exact List.erase_subset

/-! ### Undoing -/

/-- Undoing forgets a literal shown above the level. -/
theorem backtrack_assign (h : k < j) : (c.assign l j).backtrack k = c.backtrack k := by
  have hj : ¬j ≤ k := Nat.not_le_of_lt h
  rcases c.assign_cases l j with ⟨hs, _, heq⟩ | ⟨p, hp, heq⟩ | heq
  · have hnone : c.satisfiedAt = none := by simpa [isSatisfied] using hs
    simpa [heq, backtrack, hnone] using h
  · obtain ⟨hlt, hget, _⟩ := List.idxOf?_eq_some_iff.mp hp
    have hback : (c.live.eraseIdx p).insertIdx p (-l) = c.live := by
      rw [← hget, List.insertIdx_eraseIdx_getElem hlt]
    simp [heq, backtrack, reinsert, hj, hback]
  · rw [heq]

/-- A clause to which nothing happened above the level is left alone. -/
theorem backtrack_eq_self (hr : ∀ r ∈ c.removals, r.level ≤ k)
    (hs : ∀ s, c.satisfiedAt = some s → s ≤ k) : c.backtrack k = c := by
  have hlive : reinsert k c.live c.removals = (c.live, c.removals) := by
    cases hc : c.removals with
    | nil => rfl
    | cons r rs => rw [reinsert, if_pos (hr r (by simp [hc]))]
  have hsat : c.satisfiedAt.filter (· ≤ k) = c.satisfiedAt := by
    cases hc : c.satisfiedAt with
    | none => rfl
    | some s => simp [hs s hc]
  rw [backtrack, hlive, hsat]

theorem levels_assign_le (hr : ∀ r ∈ c.removals, r.level ≤ k)
    (hs : ∀ s, c.satisfiedAt = some s → s ≤ k) (hj : j ≤ k) :
    (∀ r ∈ (c.assign l j).removals, r.level ≤ k) ∧
      ∀ s, (c.assign l j).satisfiedAt = some s → s ≤ k := by
  rcases c.assign_cases l j with ⟨_, _, heq⟩ | ⟨p, _, heq⟩ | heq <;> rw [heq]
  · exact ⟨hr, fun s h => (Option.some.inj h) ▸ hj⟩
  · refine ⟨fun r h => ?_, hs⟩
    rcases List.mem_cons.mp h with rfl | h
    · exact hj
    · exact hr r h
  · exact ⟨hr, hs⟩

theorem levels_replay_le (hE : ∀ e ∈ E, e.1 ≤ k) :
    (∀ r ∈ ((ofLiterals ls).replay E).removals, r.level ≤ k) ∧
      ∀ s, ((ofLiterals ls).replay E).satisfiedAt = some s → s ≤ k := by
  induction E with
  | nil => simp [replay, ofLiterals]
  | cons e E ih =>
    obtain ⟨hr, hs⟩ := ih fun x hx => hE x (List.mem_cons_of_mem e hx)
    exact levels_assign_le hr hs (hE e List.mem_cons_self)

/-- Undoing keeps what was shown up to the level, if that came before everything else. -/
theorem backtrack_replay (hE : ∀ e ∈ E, k < e.1) (hF : ∀ e ∈ F, e.1 ≤ k) :
    ((ofLiterals ls).replay (E ++ F)).backtrack k = (ofLiterals ls).replay F := by
  induction E with
  | nil =>
    have hlevels := @levels_replay_le n k F ls hF
    exact backtrack_eq_self hlevels.1 hlevels.2
  | cons e E ih =>
    rw [List.cons_append, replay, List.foldr_cons, ← replay,
      backtrack_assign (hE e List.mem_cons_self)]
    exact ih fun x hx => hE x (List.mem_cons_of_mem e hx)

/-! ### What a timeline makes of a clause -/

theorem live_replay_subset : ((ofLiterals ls).replay E).live ⊆ ls := by
  induction E with
  | nil => exact fun l hl => List.mem_eraseDups.mp hl
  | cons e E ih => exact fun l hl => ih (live_assign_subset hl)

/-- A literal of another variable than the clause's own does nothing. -/
theorem replay_cons_eq_self (hl : ∀ x ∈ ls, x.position ≠ l.position) :
    (ofLiterals ls).replay ((k, l) :: E) = (ofLiterals ls).replay E :=
  assign_eq_self (fun h => hl l (live_replay_subset h) rfl)
    (fun h => hl (-l) (live_replay_subset h) (BoundedLiteral.position_neg l))

private theorem replay_spec (hE : E.literals.Consistent) :
    (((ofLiterals ls).replay E).isSatisfied = true ↔ E.literals.Satisfies ls) ∧
      (¬E.literals.Satisfies ls →
        ((ofLiterals ls).replay E).live = ls.eraseDups.filter fun x => -x ∉ E.literals) := by
  induction E with
  | nil =>
    refine ⟨?_, fun _ => ?_⟩
    · simp [replay, ofLiterals, isSatisfied, Trail.Satisfies, Timeline.literals]
    · exact (List.filter_eq_self.mpr fun x _ => by simp [Timeline.literals]).symm
  | cons e E ih =>
    obtain ⟨k, l⟩ := e
    rw [Timeline.literals_cons] at hE ⊢
    obtain ⟨hopen, hE⟩ := Trail.consistent_cons.mp hE
    obtain ⟨hsat, hlive⟩ := ih hE
    have hmem (h : ¬Trail.Satisfies (Timeline.literals E) ls) :
        l ∈ ((ofLiterals ls).replay E).live ↔ l ∈ ls := by
      rw [hlive h, List.mem_filter, List.mem_eraseDups]
      simp [hopen.2]
    rw [Trail.satisfies_cons, replay_cons]
    refine ⟨?_, fun h => ?_⟩
    · rw [isSatisfied_assign, hsat]
      by_cases h : Trail.Satisfies (Timeline.literals E) ls
      · simp [h]
      · rw [hmem h, or_comm]
    · rw [not_or] at h
      have hskip : ¬(((ofLiterals ls).replay E).isSatisfied = false ∧
          l ∈ ((ofLiterals ls).replay E).live) := fun hl => h.1 ((hmem h.2).mp hl.2)
      have hnodup : ((ofLiterals ls).replay E).live.Nodup :=
        hlive h.2 ▸ (nodup_eraseDups ls).filter _
      rw [live_assign hskip, hnodup.erase_eq_filter, hlive h.2, List.filter_filter]
      apply List.filter_congr
      intro x _
      have hx : x = -l ↔ -x = l := by
        rw [← BoundedLiteral.neg_inj, BoundedLiteral.neg_neg]
      rw [Bool.eq_iff_iff]
      simp [hx]

theorem isSatisfied_replay (hE : E.literals.Consistent) :
    ((ofLiterals ls).replay E).isSatisfied = true ↔ E.literals.Satisfies ls := (replay_spec hE).1

theorem live_replay (hE : E.literals.Consistent) (h : ¬E.literals.Satisfies ls) :
    ((ofLiterals ls).replay E).live = ls.eraseDups.filter fun x => -x ∉ E.literals :=
  (replay_spec hE).2 h

theorem isUnsatisfiable_replay (hE : E.literals.Consistent) :
    ((ofLiterals ls).replay E).isUnsatisfiable = true ↔ E.literals.Falsifies ls := by
  rw [isUnsatisfiable, Bool.and_eq_true, Bool.not_eq_true', Bool.eq_false_iff, ne_eq,
    isSatisfied_replay hE, List.isEmpty_iff]
  constructor
  · rintro ⟨hs, hlive⟩ x hx
    rw [live_replay hE hs, List.filter_eq_nil_iff] at hlive
    simpa using hlive x (List.mem_eraseDups.mpr hx)
  · intro h
    have hs := hE.not_satisfies h
    refine ⟨hs, ?_⟩
    rw [live_replay hE hs, List.filter_eq_nil_iff]
    intro x hx
    simpa using h x (List.mem_eraseDups.mp hx)

end ShrinkingClause

end Dpll
