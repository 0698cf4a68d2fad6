import Dpll.Proofs.Adjacency.Replay
import Dpll.Proofs.UnitClosure

/-! Unit propagation over shrinking clauses. What the clauses show is read off the trail
(`Adjacency.Follows`): a single live literal is the last open literal of a clause without a true
one, and if no clause has one, every clause is settled or one is falsified. Each forced literal
satisfies the clause that forced it, so the rounds suffice (`Adjacency.Follows.unitPropagate`). -/

namespace Dpll

namespace ShrinkingClause

variable {n : Nat} {E : Timeline n} {ls : List (BoundedLiteral n)} {l : BoundedLiteral n}

/-- The last open literal of a clause without a true one. -/
theorem unitLiteral?_eq_some (c : ShrinkingClause n) :
    c.unitLiteral? = some l ↔ c.isSatisfied = false ∧ c.live = [l] := by
  unfold unitLiteral?
  split
  · rename_i hs hl
    simp [hs, hl]
  · rename_i h
    constructor
    · simp
    · rintro ⟨hs, hl⟩
      exact absurd hl (h l hs)

theorem live_of_unitLiteral? (hE : E.literals.Consistent)
    (h : ((ofLiterals ls).replay E).unitLiteral? = some l) :
    l ∈ ls ∧ E.literals.Open l ∧ ∀ x ∈ ls, x ≠ l → -x ∈ E.literals := by
  obtain ⟨hs, hlive⟩ := (unitLiteral?_eq_some _).mp h
  have hsat : ¬Trail.Satisfies E.literals ls := by
    rw [← isSatisfied_replay hE, hs]
    simp
  rw [live_replay hE hsat] at hlive
  have hmem : ∀ x, x ∈ ls ∧ -x ∉ E.literals ↔ x = l := fun x => by
    have hx : x ∈ ls.eraseDups.filter (fun x => -x ∉ E.literals) ↔ x ∈ [l] := by rw [hlive]
    simpa using hx
  obtain ⟨hl, hneg⟩ := (hmem l).mpr rfl
  refine ⟨hl, ⟨fun h => hsat ⟨l, hl, h⟩, hneg⟩, fun x hx hxl => ?_⟩
  exact Decidable.not_not.mp fun hn => hxl ((hmem x).mp ⟨hx, hn⟩)

/-- A clause with no last literal to force is settled unless it is falsified. -/
theorem settles_of_unitLiteral? (hE : E.literals.Consistent)
    (h : ((ofLiterals ls).replay E).unitLiteral? = none) (hf : ¬Trail.Falsifies E.literals ls) :
    Trail.Settles E.literals ls := by
  by_cases hsat : Trail.Satisfies E.literals ls
  · exact .inl hsat
  · have hs : ((ofLiterals ls).replay E).isSatisfied = false := by
      rw [Bool.eq_false_iff, ne_eq, isSatisfied_replay hE]
      exact hsat
    have hlive := live_replay hE hsat
    have hnodup := (nodup_eraseDups ls).filter fun x => -x ∉ E.literals
    rw [← hlive] at hnodup
    have hopen (x) (hx : x ∈ ((ofLiterals ls).replay E).live) : x ∈ ls ∧ E.literals.Open x := by
      rw [hlive, List.mem_filter, List.mem_eraseDups] at hx
      exact ⟨hx.1, fun h => hsat ⟨x, hx.1, h⟩, by simpa using hx.2⟩
    cases hc : ((ofLiterals ls).replay E).live with
    | nil =>
      refine absurd (fun x hx => ?_) hf
      rw [hlive, List.filter_eq_nil_iff] at hc
      simpa using hc x (List.mem_eraseDups.mpr hx)
    | cons a rest =>
      cases rest with
      | nil => simp [(unitLiteral?_eq_some _).mpr ⟨hs, hc⟩] at h
      | cons b rest =>
        rw [hc] at hopen hnodup
        have hne : a ≠ b := fun hab => by simp [hab] at hnodup
        obtain ⟨ha, hoa⟩ := hopen a (by simp)
        obtain ⟨hb, hob⟩ := hopen b (by simp)
        exact .inr ⟨a, ha, b, hb, hne, hoa, hob⟩

end ShrinkingClause

namespace Adjacency

variable {n : Nat} {cs : List (List (BoundedLiteral n))} {f : Adjacency n cs.length}
  {c k : Level} {l : BoundedLiteral n} {d : List (BoundedLiteral n)}

section

variable {m : Nat} {f : Adjacency n m} {i : Fin m}

theorem isSatisfied_of_numUnsatisfied (h : f.numUnsatisfied = 0) : f.isSatisfied = true := by
  rw [numUnsatisfied, ← Vector.countP_toList, List.countP_eq_zero] at h
  rw [isSatisfied, Vector.all_eq_true_iff_forall_mem]
  exact fun s hs => by simpa using h s (Vector.mem_toList_iff.mpr hs)

theorem numUnsatisfied_eq (f : Adjacency n m) : f.numUnsatisfied =
    (List.finRange m).countP fun i => !(f.clauses.get i).isSatisfied := by
  rw [numUnsatisfied, ← Vector.countP_toList, toList_eq_map_get, List.countP_map]
  rfl

theorem exists_of_unitLiteral? (h : f.unitLiteral? = some l) :
    ∃ i, (f.clauses.get i).unitLiteral? = some l := by
  rw [unitLiteral?, ← Vector.findSome?_toList, toList_eq_map_get, List.findSome?_map] at h
  obtain ⟨i, -, hi⟩ := List.exists_of_findSome?_eq_some h
  exact ⟨i, hi⟩

/-- A live literal of a clause that is not satisfied satisfies one more clause. -/
theorem numUnsatisfied_assign_lt_of_mem (hnodup : (f.occurrences.get l.position).toList.Nodup)
    (hi : i ∈ (f.occurrences.get l.position).toList) (hs : (f.clauses.get i).isSatisfied = false)
    (hl : l ∈ (f.clauses.get i).live) : (f.assign l k).numUnsatisfied < f.numUnsatisfied := by
  rw [numUnsatisfied_eq, numUnsatisfied_eq]
  refine countP_lt_countP (fun j _ hj => ?_) (List.mem_finRange i) (by simp [hs]) ?_
  · rw [Bool.not_eq_true', Bool.eq_false_iff] at hj ⊢
    refine mt (fun hj' => ?_) hj
    rw [clauses_assign hnodup]
    split
    · exact ShrinkingClause.isSatisfied_assign.mpr (.inl hj')
    · exact hj'
  · rw [clauses_assign hnodup, if_pos hi, ShrinkingClause.isSatisfied_assign.mpr (.inr hl)]
    simp

end

namespace Follows

/-! ### What the formula shows -/

theorem toList_clauses (h : Follows cs f c) : f.clauses.toList =
    cs.map fun d => (ShrinkingClause.ofLiterals d).replay f.assigned.entries := by
  apply List.ext_getElem
  · simp
  · intro i hi _
    rw [List.getElem_map]
    exact h.clauses ⟨i, by simpa using hi⟩

theorem mem_clauses (h : Follows cs f c) {s : ShrinkingClause n} :
    s ∈ f.clauses ↔ ∃ d ∈ cs, (ShrinkingClause.ofLiterals d).replay f.assigned.entries = s := by
  rw [← Vector.mem_toList_iff, h.toList_clauses, List.mem_map]

theorem isSatisfied_iff (h : Follows cs f c) :
    f.isSatisfied = true ↔ ∀ d ∈ cs, f.trail.Satisfies d := by
  rw [isSatisfied, Vector.all_eq_true_iff_forall_mem]
  constructor
  · intro hall d hd
    exact (ShrinkingClause.isSatisfied_replay h.ordered.consistent).mp
      (hall _ (h.mem_clauses.mpr ⟨d, hd, rfl⟩))
  · intro hall s hs
    obtain ⟨d, hd, rfl⟩ := h.mem_clauses.mp hs
    exact (ShrinkingClause.isSatisfied_replay h.ordered.consistent).mpr (hall d hd)

theorem isUnsatisfiable_iff (h : Follows cs f c) :
    f.isUnsatisfiable = true ↔ ∃ d ∈ cs, f.trail.Falsifies d := by
  rw [isUnsatisfiable, Option.isSome_iff_exists, h.unsatisfiableAt_iff]

/-- The live clauses are those with no true literal and one not false; each shows its literals not
false. -/
theorem liveClauses_eq (h : Follows cs f c) : f.liveClauses =
    (cs.filter fun d => ¬f.trail.Satisfies d ∧ ¬f.trail.Falsifies d).map
      fun d => d.eraseDups.filter (-· ∉ f.trail) := by
  have hcons := h.ordered.consistent
  have hlive (d : List (BoundedLiteral n)) :
      (!((ShrinkingClause.ofLiterals d).replay f.assigned.entries).isSatisfied &&
        !((ShrinkingClause.ofLiterals d).replay f.assigned.entries).live.isEmpty) =
      decide (¬f.trail.Satisfies d ∧ ¬f.trail.Falsifies d) := by
    have hs : ((ShrinkingClause.ofLiterals d).replay f.assigned.entries).isSatisfied = true ↔
        f.trail.Satisfies d := ShrinkingClause.isSatisfied_replay hcons
    have hf : ((ShrinkingClause.ofLiterals d).replay f.assigned.entries).isUnsatisfiable = true ↔
        f.trail.Falsifies d := ShrinkingClause.isUnsatisfiable_replay hcons
    rw [Bool.eq_iff_iff, decide_eq_true_eq, ← hs, ← hf, ShrinkingClause.isUnsatisfiable]
    cases ((ShrinkingClause.ofLiterals d).replay f.assigned.entries).isSatisfied <;> simp
  rw [liveClauses, h.toList_clauses, List.filter_map, List.map_map]
  refine (congrArg _ (List.filter_congr fun d _ => hlive d)).trans ?_
  refine List.map_congr_left fun d hd => ?_
  have hs := (of_decide_eq_true (List.mem_filter.mp hd).2).1
  exact ShrinkingClause.live_replay hcons hs

theorem mem_liveClauses (h : Follows cs f c) : d ∈ f.liveClauses ↔ ∃ e ∈ cs,
    ¬f.trail.Satisfies e ∧ ¬f.trail.Falsifies e ∧ e.eraseDups.filter (-· ∉ f.trail) = d := by
  rw [h.liveClauses_eq, List.mem_map]
  simp only [List.mem_filter, decide_eq_true_eq, and_assoc]

theorem open_of_mem_liveClauses (h : Follows cs f c) (hd : d ∈ f.liveClauses) (hl : l ∈ d) :
    f.trail.Open l := by
  obtain ⟨e, _, hs, _, rfl⟩ := h.mem_liveClauses.mp hd
  rw [List.mem_filter, List.mem_eraseDups] at hl
  exact ⟨fun h => hs ⟨l, hl.1, h⟩, by simpa using hl.2⟩

/-- There is a live literal unless the formula is decided. -/
theorem exists_mem_liveClauses (h : Follows cs f c) (hs : f.isSatisfied = false)
    (hu : f.isUnsatisfiable = false) : ∃ d ∈ f.liveClauses, d ≠ [] := by
  rw [Bool.eq_false_iff, ne_eq, h.isSatisfied_iff] at hs
  rw [Bool.eq_false_iff, ne_eq, h.isUnsatisfiable_iff] at hu
  simp only [not_forall] at hs
  obtain ⟨e, he, hsat⟩ := hs
  have hf : ¬f.trail.Falsifies e := fun hf => hu ⟨e, he, hf⟩
  refine ⟨_, h.mem_liveClauses.mpr ⟨e, he, hsat, hf, rfl⟩, fun hnil => hf fun x hx => ?_⟩
  simpa using List.filter_eq_nil_iff.mp hnil x (List.mem_eraseDups.mpr hx)

/-! ### Propagation -/

theorem unit_of_unitLiteral? (h : Follows cs f c) (hl : f.unitLiteral? = some l) :
    ∃ d ∈ cs, l ∈ d ∧ f.trail.Open l ∧ ∀ x ∈ d, x ≠ l → -x ∈ f.trail := by
  rw [unitLiteral?, ← Vector.findSome?_toList, h.toList_clauses] at hl
  obtain ⟨s, hs, hl⟩ := List.exists_of_findSome?_eq_some hl
  obtain ⟨d, hd, rfl⟩ := List.mem_map.mp hs
  exact ⟨d, hd, ShrinkingClause.live_of_unitLiteral? h.ordered.consistent hl⟩

theorem settles_of_unitLiteral? (h : Follows cs f c) (hl : f.unitLiteral? = none)
    (hu : f.isUnsatisfiable = false) (hd : d ∈ cs) : f.trail.Settles d := by
  rw [unitLiteral?, ← Vector.findSome?_toList, h.toList_clauses, List.findSome?_eq_none_iff] at hl
  rw [Bool.eq_false_iff, ne_eq, h.isUnsatisfiable_iff] at hu
  exact ShrinkingClause.settles_of_unitLiteral? h.ordered.consistent
    (hl _ (List.mem_map_of_mem hd)) fun hf => hu ⟨d, hd, hf⟩

/-- A forced literal satisfies the clause that forced it. -/
theorem numUnsatisfied_assign_lt (h : Follows cs f c) (hl : f.unitLiteral? = some l) :
    (f.assign l k).numUnsatisfied < f.numUnsatisfied := by
  obtain ⟨i, hi⟩ := exists_of_unitLiteral? hl
  obtain ⟨hs, hlive⟩ := (ShrinkingClause.unitLiteral?_eq_some _).mp hi
  rw [h.clauses i] at hi
  obtain ⟨hmem, -, -⟩ := ShrinkingClause.live_of_unitLiteral? h.ordered.consistent hi
  have hocc : i ∈ (f.occurrences.get l.position).toList :=
    (h.mem_occurrences_iff i).mpr ⟨l, hmem, rfl⟩
  exact numUnsatisfied_assign_lt_of_mem h.nodup_occurrences_toList hocc hs (by simp [hlive])

theorem mono (h : Follows cs f c) (hck : c ≤ k) : Follows cs f k :=
  ⟨h.occurrences, h.clauses, h.ordered.mono hck, h.unsatisfiable⟩

/-- Noting a step changes nothing the clauses show. -/
theorem of_propagationSteps (h : Follows cs f c) (steps : Nat) :
    Follows cs { f with propagationSteps := steps } c :=
  ⟨h.occurrences, h.clauses, h.ordered, h.unsatisfiable⟩

theorem propagateFor (h : Follows cs f c) (hck : c ≤ k) {rounds : Nat}
    (hrounds : f.numUnsatisfied ≤ rounds) : ∃ new : Trail n,
      Follows cs (f.propagateFor k rounds) k ∧
      (f.propagateFor k rounds).assigned.entries = new.map (k, ·) ++ f.assigned.entries ∧
      (f.propagateFor k rounds).propagationSteps = f.propagationSteps + new.length ∧
      (∀ l ∈ new, UnitClosure cs (· ∈ f.trail) l) ∧
      ((f.propagateFor k rounds).isUnsatisfiable = true ∨
        ∀ d ∈ cs, (f.propagateFor k rounds).trail.Settles d) := by
  have hmono : Follows cs f k := h.mono hck
  induction rounds generalizing f c with
  | zero =>
    have hsat := isSatisfied_of_numUnsatisfied (Nat.le_zero.mp hrounds)
    exact ⟨[], hmono, rfl, rfl, by simp, .inr fun d hd => .inl (h.isSatisfied_iff.mp hsat d hd)⟩
  | succ rounds ih =>
    rw [Adjacency.propagateFor]
    split
    · rename_i hu
      exact ⟨[], hmono, rfl, rfl, by simp, .inl hu⟩
    · rename_i hu
      cases hl : f.unitLiteral? with
      | none =>
        exact ⟨[], hmono, rfl, rfl, by simp, .inr fun d hd =>
          h.settles_of_unitLiteral? hl (Bool.eq_false_iff.mpr hu) hd⟩
      | some l =>
        obtain ⟨d, hd, hld, hopen, hrest⟩ := h.unit_of_unitLiteral? hl
        have hlt := h.numUnsatisfied_assign_lt (k := k) hl
        have hnext := (h.assign hck hopen).of_propagationSteps
          ((f.assign l k).propagationSteps + 1)
        obtain ⟨new, hg, hentries, hsteps, hclosed, hend⟩ :=
          ih hnext (Nat.le_refl k) (Nat.le_of_lt_succ (Nat.lt_of_lt_of_le hlt hrounds)) hnext
        refine ⟨new ++ [l], hg, ?_, ?_, ?_, hend⟩
        · rw [hentries, List.map_append, List.append_assoc]
          exact congrArg _ (h.entries_assign hck)
        · rw [hsteps, List.length_append, List.length_singleton]
          change (f.assign l k).propagationSteps + 1 + new.length = _
          rw [propagationSteps_assign]
          omega
        · have hforced : UnitClosure cs (· ∈ f.trail) l :=
            .unit hd hld fun x hx hxl => .base (hrest x hx hxl)
          have hforces : Forces cs f.trail (f.assign l k).trail :=
            ⟨[l], h.trail_assign hck, List.forall_mem_singleton.mpr hforced⟩
          intro x hx
          rcases List.mem_append.mp hx with hx | hx
          · exact (hclosed x hx).trans hforces.closure
          · exact List.mem_singleton.mp hx ▸ hforced

/-- Propagation forces literals of the unit closure until every clause is settled or one is
falsified. -/
theorem unitPropagate (h : Follows cs f c) (hck : c ≤ k) : ∃ new : Trail n,
    Follows cs (f.unitPropagate k) k ∧
    (f.unitPropagate k).assigned.entries = new.map (k, ·) ++ f.assigned.entries ∧
    (f.unitPropagate k).propagationSteps = f.propagationSteps + new.length ∧
    (∀ l ∈ new, UnitClosure cs (· ∈ f.trail) l) ∧
    ((f.unitPropagate k).isUnsatisfiable = true ∨
      ∀ d ∈ cs, (f.unitPropagate k).trail.Settles d) :=
  h.propagateFor hck (Nat.le_refl _)

end Follows

end Adjacency

end Dpll
