import Dpll.Heuristic

/-! What a search may rely on, whichever heuristic it asks: a suggested literal stands in a live
clause (`Heuristic.mem_of_suggest`), and a literal is suggested whenever some live clause has
one (`Heuristic.eq_nil_of_suggest`). Neither depends on the state of the heuristic. -/

namespace Dpll

namespace Generator

variable {α : Type u} {as : List α} {a : α}

theorem mem_of_choose (g : Generator) (h : (g.choose as).1 = some a) : a ∈ as := by
  cases as with
  | nil => cases h
  | cons b as => exact List.mem_of_getElem? h

theorem eq_nil_of_choose (g : Generator) (h : (g.choose as).1 = none) : as = [] := by
  cases as with
  | nil => rfl
  | cons b as =>
    have hle : (b :: as).length ≤ (g.below (b :: as).length).1 := List.getElem?_eq_none_iff.mp h
    have hlt : (g.below (b :: as).length).1 < (b :: as).length := g.below_lt (Nat.succ_pos _)
    exact absurd hlt (Nat.not_lt_of_le hle)

end Generator

namespace Scores

variable {ℓ : Type} [BEq ℓ] [Hashable ℓ] {s : Scores ℓ} {l : ℓ}

/-- The better of the best literal so far and the next one. -/
private theorem foldl_best (s : Scores ℓ) (ls : List ℓ) (best : Option ℓ) :
    ∀ r, r = ls.foldl (fun best l => match best with
      | none => some l
      | some b => if s.get l < s.get b then some b else some l) best →
    (∀ l, r = some l → l ∈ ls ∨ best = some l) ∧ (r = none → ls = [] ∧ best = none) := by
  induction ls generalizing best with
  | nil =>
    rintro r rfl
    exact ⟨fun l h => .inr h, fun h => ⟨rfl, h⟩⟩
  | cons k ls ih =>
    intro r hr
    obtain ⟨hsome, hnone⟩ := ih _ r hr
    cases best with
    | none =>
      refine ⟨fun l h => ?_, fun h => by simpa using (hnone h).2⟩
      rcases hsome l h with h | h
      · exact .inl (List.mem_cons_of_mem k h)
      · exact .inl (by simp [Option.some.inj h])
    | some b =>
      refine ⟨fun l h => ?_, fun h => ?_⟩
      · rcases hsome l h with h | h
        · exact .inl (List.mem_cons_of_mem k h)
        · dsimp only at h
          split at h
          · exact .inr h
          · exact .inl (by simp [Option.some.inj h])
      · have hbest := (hnone h).2
        dsimp only at hbest
        split at hbest <;> simp at hbest

theorem mem_of_best? (h : s.best? = some l) : l ∈ s.seen := by
  simpa using (foldl_best s s.seen none _ rfl).1 l h

theorem seen_of_best? (h : s.best? = none) : s.seen = [] :=
  ((foldl_best s s.seen none _ rfl).2 h).1

/-- The literals with a score are those met so far. -/
def Sound (s : Scores ℓ) : Prop := ∀ l, s.score.contains l = true ↔ l ∈ s.seen

private theorem sound_empty : (empty : Scores ℓ).Sound := by simp [Sound, empty]

theorem mem_seen_add (h : s.Sound) (weight : Float) (k : ℓ) :
    l ∈ (s.add weight k).seen ↔ l = k ∨ l ∈ s.seen := by
  rw [add]
  split
  · rename_i hk
    constructor
    · exact .inr
    · rintro (rfl | hl)
      · exact (h l).mp hk
      · exact hl
  · exact List.mem_cons

variable [LawfulBEq ℓ]

theorem Sound.add (h : s.Sound) (weight : Float) (k : ℓ) : (s.add weight k).Sound := by
  intro l
  rw [mem_seen_add h, ← h l]
  change (s.score.insert k _).contains l = true ↔ _
  rw [Std.HashMap.contains_insert, Bool.or_eq_true, beq_iff_eq, eq_comm]

private theorem Sound.addAll (h : s.Sound) (weight : Float) (ls : List ℓ) :
    (ls.foldl (Scores.add weight) s).Sound ∧
      ∀ l, l ∈ (ls.foldl (Scores.add weight) s).seen ↔ l ∈ ls ∨ l ∈ s.seen := by
  induction ls generalizing s with
  | nil => exact ⟨h, by simp⟩
  | cons k ls ih =>
    obtain ⟨hsound, hmem⟩ := ih (h.add weight k)
    refine ⟨hsound, fun l => ?_⟩
    rw [List.foldl_cons, hmem, mem_seen_add h, List.mem_cons, or_left_comm, or_assoc]

private theorem Sound.addClauses (h : s.Sound) (cs : List (List ℓ)) :
    (cs.foldl addClause s).Sound ∧
      ∀ l, l ∈ (cs.foldl addClause s).seen ↔ l ∈ cs.flatten ∨ l ∈ s.seen := by
  induction cs generalizing s with
  | nil => exact ⟨h, by simp⟩
  | cons c cs ih =>
    obtain ⟨hsound, hmem⟩ := h.addAll (clauseWeight c.length) c
    obtain ⟨hrest, hmem'⟩ := ih hsound
    refine ⟨hrest, fun l => (hmem' l).trans ?_⟩
    rw [hmem, List.flatten_cons, List.mem_append, or_left_comm, or_assoc]

/-- Every literal that was met has a score. -/
theorem sound_ofClauses (cs : List (List ℓ)) : (ofClauses cs).Sound :=
  (sound_empty.addClauses cs).1

theorem mem_seen_ofClauses (cs : List (List ℓ)) : l ∈ (ofClauses cs).seen ↔ l ∈ cs.flatten := by
  rw [ofClauses, (sound_empty.addClauses cs).2]
  simp [empty]

end Scores

namespace Policy

variable {ℓ : Type} [BEq ℓ] [LawfulBEq ℓ] [Hashable ℓ] {live : List (List ℓ)} {l : ℓ}

theorem mem_of_pick (p : Policy) (h : (p.pick live).1 = some l) : l ∈ live.flatten := by
  cases p with
  | takeFirst =>
    obtain ⟨c, hc, hl⟩ := List.exists_of_findSome?_eq_some h
    exact List.mem_flatten.mpr ⟨c, hc, List.mem_of_head? hl⟩
  | random g => exact g.mem_of_choose h
  | jeroslowWang => exact (Scores.mem_seen_ofClauses live).mp (Scores.mem_of_best? h)

theorem flatten_of_pick (p : Policy) (h : (p.pick live).1 = none) : live.flatten = [] := by
  cases p with
  | takeFirst =>
    rw [List.flatten_eq_nil_iff]
    intro c hc
    exact List.head?_eq_none_iff.mp (List.findSome?_eq_none_iff.mp h c hc)
  | random g => exact g.eq_nil_of_choose h
  | jeroslowWang =>
    rw [List.eq_nil_iff_forall_not_mem]
    intro l hl
    rw [← Scores.mem_seen_ofClauses, Scores.seen_of_best? h] at hl
    exact List.not_mem_nil hl

end Policy

namespace Heuristic

variable {σ : Type u} {ℓ : Type} [Backtrackable σ ℓ] [BEq ℓ] [LawfulBEq ℓ] [Hashable ℓ] {f : σ}
  {l : ℓ}

/-- A suggested literal stands in a live clause. -/
theorem mem_of_suggest (h : Heuristic) (hl : (h.suggest f).1 = some l) :
    ∃ c ∈ Backtrackable.liveClauses f, l ∈ c := List.mem_flatten.mp (h.policy.mem_of_pick hl)

/-- No literal is suggested only when no live clause has one. -/
theorem eq_nil_of_suggest (h : Heuristic) (hl : (h.suggest f).1 = none)
    {c : List ℓ} (hc : c ∈ Backtrackable.liveClauses f) : c = [] :=
  List.flatten_eq_nil_iff.mp (h.policy.flatten_of_pick hl) c hc

/-- A literal is suggested exactly when some live clause has one. -/
theorem suggest_eq_some_iff (h : Heuristic) : (∃ l, (h.suggest f).1 = some l) ↔
    ∃ c ∈ Backtrackable.liveClauses f, ∃ l, l ∈ c := by
  constructor
  · rintro ⟨l, hl⟩
    obtain ⟨c, hc, hlc⟩ := h.mem_of_suggest hl
    exact ⟨c, hc, l, hlc⟩
  · rintro ⟨c, hc, l, hlc⟩
    cases hs : (h.suggest f).1 with
    | none =>
      rw [h.eq_nil_of_suggest hs hc] at hlc
      exact absurd hlc List.not_mem_nil
    | some k => exact ⟨k, rfl⟩

end Heuristic

end Dpll
