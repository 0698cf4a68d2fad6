import Dpll.Proofs.Watched.Backlog

/-! What the watches of a formula guarantee between decisions. A false watch is excused only by what
lies at its level or below: the clause was found satisfied there. The reason is that nothing is due
on the trail of any level (`Watched.Rests.settles_upTo`), so a clause with a false watch and nothing
else to watch has a true other watch at that level. Undoing drops the excuse only with the false
literal itself, which is why it need not touch the watches. -/

namespace Dpll

open Backtrackable

variable {n m : Nat}

theorem Timeline.upTo_mem_layers {E : Timeline n} {c k : Level} (h : k < c) :
    E.upTo k ∈ E.layers c := by
  induction c with
  | zero => cases h
  | succ c ih =>
    rw [layers]
    rcases Nat.lt_succ_iff_lt_or_eq.mp h with h | rfl
    · exact List.mem_cons_of_mem _ (ih h)
    · exact List.mem_cons_self

/-- A list can be cut so that a given number of elements follows the cut. -/
theorem exists_append_cons {α : Type u} {as : List α} {k : Nat} (h : k < as.length) :
    ∃ bs b cs, as = bs ++ b :: cs ∧ cs.length = k := by
  have hlt : as.length - (k + 1) < as.length := by omega
  refine ⟨as.take (as.length - (k + 1)), as[as.length - (k + 1)],
    as.drop (as.length - (k + 1) + 1), ?_, ?_⟩
  · rw [← List.drop_eq_getElem_cons hlt, List.take_append_drop]
  · rw [List.length_drop]
    omega

/-- A formula that started as `f`, at the level it has come to: the literals `as` were made true at
level zero, and then there were decisions and returns to lower levels, with propagation after every
step up. -/
inductive Decided {σ : Type} [Backtrackable σ (BoundedLiteral n)] (f : σ)
    (as : List (BoundedLiteral n)) : Level → σ → Prop
  | start : Decided f as 0 (unitPropagate (as.foldl (fun f l => assign f l 0) f) 0)
  | decide : Decided f as c g → isUnsatisfiable g = false → Trail.Open (assignment g) l →
    Decided f as (c + 1) (unitPropagate (assign g l (c + 1)) (c + 1))
  | undo : Decided f as c g → k < c → Decided f as k (backtrack g k)

namespace Laws

variable {σ : Type} [Backtrackable σ (BoundedLiteral n)] {cs : List (List (BoundedLiteral n))}
  {L : Laws σ cs} {as : List (BoundedLiteral n)} {c k : Level} {f g : σ}

/-- At level `c` propagation has ended, with or without a conflict. -/
inductive Propagated (L : Laws σ cs) (c : Level) (f : σ) : Prop
  | settled (length : As.length = c) (settled : L.Settled A As f)
  | failed (length : As.length = c) (failed : L.Failed As f)

theorem propagated_unitPropagate {B : Trail n} {As : List (Trail n)} (h : L.Pending B As f) :
    L.Propagated As.length (unitPropagate f As.length) := by
  rcases L.propagate h with ⟨new, hset, -, -⟩ | ⟨hfail, -⟩
  · exact .settled rfl hset
  · exact .failed rfl hfail

theorem Propagated.exists_settled (H : L.Propagated c f) (hu : isUnsatisfiable f = false) :
    ∃ A As, As.length = c ∧ L.Settled A As f := by
  cases H with
  | settled hlen hset => exact ⟨_, _, hlen, hset⟩
  | failed _ hfail => cases (L.unsatisfiable hfail).symm.trans hu

theorem Propagated.decide {l : BoundedLiteral n} (H : L.Propagated c f)
    (hu : isUnsatisfiable f = false) (hl : Trail.Open (assignment f) l) :
    L.Propagated (c + 1) (unitPropagate (assign f l (c + 1)) (c + 1)) := by
  obtain ⟨A, As, rfl, hset⟩ := H.exists_settled hu
  rw [L.assignment_eq hset, Trail.open_reverse] at hl
  exact propagated_unitPropagate (L.decide hset hl)

theorem Propagated.undo (H : L.Propagated c f) (hk : k < c) : L.Propagated k (backtrack f k) := by
  cases H with
  | settled hlen hset =>
    obtain ⟨Bs, B, Cs, rfl, rfl⟩ := exists_append_cons (hlen ▸ hk)
    exact .settled rfl (L.undo_settled hset)
  | failed hlen hfail =>
    obtain ⟨Bs, B, Cs, rfl, rfl⟩ := exists_append_cons (hlen ▸ hk)
    exact .settled rfl (L.undo_failed hfail)

/-- Every run of decisions keeps the laws. -/
theorem propagated (hf : L.Pending [] [] f) (has : Trail.Consistent as) (H : Decided f as c g) :
    L.Propagated c g := by
  induction H with
  | start =>
    refine propagated_unitPropagate (L.assume_all hf ?_)
    rw [List.append_nil]
    exact Trail.consistent_reverse.mpr has
  | decide _ hu hl ih => exact ih.decide hu hl
  | undo _ hk ih => exact ih.undo hk

end Laws

namespace Watched

variable {bodies : Fin m → List (BoundedLiteral n)} {S : Agenda bodies} {f : Watched n m}
  {A : Trail n} {As : List (Trail n)} {i : Fin m} {w : Watch} {k s : Level} {x : BoundedLiteral n}

/-- Nothing is left to propagate, and every watch is either open or excused. -/
structure Vigilant (f : Watched n m) : Prop where
  queue : f.queue.toList = []
  unit : ∀ i, (f.body i).length = 1 → f.Known i
  /-- A clause that is not known to be satisfied watches two open literals. -/
  watches : ∀ i, 1 < (f.body i).length → f.Known i ∨ ∃ x ∈ f.body i, ∃ y ∈ f.body i, x ≠ y ∧
    f.watched .first i = some x ∧ f.watched .second i = some y ∧
    f.isOpen x = true ∧ f.isOpen y = true
  logged : ∀ i, f.Known i ↔ ∃ s, (i, s) ∈ f.satisfied
  /-- The true literal is at the level of the log or below. -/
  sound : ∀ i s, (i, s) ∈ f.satisfied → ∃ x ∈ f.body i, ∃ k ≤ s, f.levels.get x = some k
  /-- The false watches are at the level of the log or above. -/
  excused : ∀ i s, (i, s) ∈ f.satisfied → ∀ w x k, f.watched w i = some x →
    f.levels.get (-x) = some k → s ≤ k

theorem Logged.known_iff (H : Logged f) : f.Known i ↔ ∃ s, (i, s) ∈ f.satisfied := by
  rw [H.known, List.mem_map]
  constructor
  · rintro ⟨⟨i, s⟩, h, rfl⟩
    exact ⟨s, h⟩
  · rintro ⟨s, h⟩
    exact ⟨(i, s), h, rfl⟩

theorem Logged.level_unique (H : Logged f) {t : Level} (hs : (i, s) ∈ f.satisfied)
    (ht : (i, t) ∈ f.satisfied) : s = t :=
  congrArg Prod.snd (List.inj_on_of_nodup_map H.nodup_satisfied hs ht rfl)

namespace Rests

variable (H : Rests S A As f)

include H

/-- A clause that watches a true literal was found satisfied at its level or below. -/
theorem logged_of_true (hlen : 1 < (f.body i).length) (hx : f.watched w i = some x)
    (hk : (k, x) ∈ f.timeline) : ∃ s ≤ k, (i, s) ∈ f.satisfied :=
  (H.stands.tracks.attends H.hasEmptyClause _ hk w i hlen).1 hx

variable (hw : S.whole)

include hw

/-- Propagation has ended on every level. -/
theorem settles_upTo (k : Level) (i : Fin m) : (f.timeline.upTo k).Settles (bodies i) := by
  refine S.settles hw ?_
  by_cases hk : k < As.length
  · have hmem : f.timeline.upTo k ∈ As := H.stands.layers ▸ Timeline.upTo_mem_layers hk
    exact H.stands.quiet _ hmem i
  · rw [H.stands.tracks.timely.upTo_eq_trail (Nat.le_of_not_lt hk), H.stands.trail]
    exact H.quiet i

/-- A clause that watches a false literal was found satisfied at its level or below: if it has
nothing else to watch, then its other watch is true. -/
theorem logged_of_false (hlen : 1 < (f.body i).length) (hx : f.watched w i = some x)
    (hk : (k, -x) ∈ f.timeline) : ∃ s ≤ k, (i, s) ∈ f.satisfied := by
  have hheeds := (H.stands.tracks.attends H.hasEmptyClause _ hk w i hlen).2
  rcases hheeds (by rw [BoundedLiteral.neg_neg, hx]) with hlog | hrest
  · exact hlog
  have hother {y} (hy : y ∈ f.body i) (hneg : -y ∉ f.timeline.upTo k) :
      f.watched w.other i = some y := (hrest y hy).resolve_right hneg
  have hcons : (f.timeline.upTo k).Consistent := H.stands.tracks.timely.ordered.filter.consistent
  have hsettles := H.settles_upTo hw k i
  rw [← H.stands.tracks.body i] at hsettles
  rcases hsettles with ⟨y, hy, htrue⟩ | ⟨y, hy, z, hz, hne, hyo, hzo⟩
  · obtain ⟨t, htk, ht⟩ := Timeline.mem_upTo.mp htrue
    obtain ⟨s, hst, hs⟩ := H.logged_of_true hlen (hother hy (hcons.neg_not_mem htrue)) ht
    exact ⟨s, Nat.le_trans hst htk, hs⟩
  · have heq := (hother hy hyo.2).symm.trans (hother hz hzo.2)
    exact absurd (Option.some.inj heq) hne

theorem isOpen_of_not_known (hlen : 1 < (f.body i).length) (hx : f.watched w i = some x)
    (hi : ¬f.Known i) : f.isOpen x = true := by
  have hlogged : Logged f := H.stands.tracks.logged
  rw [H.stands.tracks.timely.isOpen_iff, ← literals_timeline]
  constructor
  · intro htrue
    obtain ⟨k, hk⟩ := Timeline.mem_literals.mp htrue
    obtain ⟨s, -, hs⟩ := H.logged_of_true hlen hx hk
    exact hi (hlogged.known_iff.mpr ⟨s, hs⟩)
  · intro hfalse
    obtain ⟨k, hk⟩ := Timeline.mem_literals.mp hfalse
    obtain ⟨s, -, hs⟩ := H.logged_of_false hw hlen hx hk
    exact hi (hlogged.known_iff.mpr ⟨s, hs⟩)

theorem vigilant : Vigilant f := by
  have hlogged : Logged f := H.stands.tracks.logged
  have htimely := H.stands.tracks.timely
  have hbody := H.stands.tracks.body
  have hplaced := H.stands.tracks.placed
  refine ⟨H.queue, fun i hlen => ?_, fun i hlen => ?_, fun i => hlogged.known_iff, fun i s hs => ?_,
    fun i s hs w x k hx hk => ?_⟩
  · rw [hbody] at hlen
    exact hlogged.known_iff.mpr ⟨0, H.prompt hw hlen⟩
  · by_cases hi : f.Known i
    · exact .inl hi
    · obtain ⟨x, hx, hxw⟩ := hplaced.exists_watched hlen .first
      obtain ⟨y, hy, hyw⟩ := hplaced.exists_watched hlen .second
      exact .inr ⟨x, hx, y, hy, hplaced.watched_ne hlen hxw hyw, hxw, hyw,
        H.isOpen_of_not_known hw hlen hxw hi, H.isOpen_of_not_known hw hlen hyw hi⟩
  · obtain ⟨x, hx, htrue⟩ := htimely.sound (i, s) hs
    obtain ⟨k, hks, hk⟩ := Timeline.mem_upTo.mp htrue
    exact ⟨x, hx, k, hks, (mem_timeline htimely.isTrue).mp hk⟩
  · have hfalse : (k, -x) ∈ f.timeline := (mem_timeline htimely.isTrue).mpr hk
    by_cases hlen : 1 < (f.body i).length
    · obtain ⟨t, htk, ht⟩ := H.logged_of_false hw hlen hx hfalse
      exact hlogged.level_unique hs ht ▸ htk
    · -- a clause of one literal was found satisfied at level zero
      have hpos : 0 < (f.body i).length := List.length_pos_of_mem (List.mem_of_getElem? hx)
      have hone : (bodies i).length = 1 := hbody i ▸ (by omega)
      exact hlogged.level_unique hs (H.prompt hw hone) ▸ Nat.zero_le k

end Rests

/-- Whatever was decided and undone, the watches of a formula without a conflict are vigilant. -/
theorem vigilant_of_decided (cs : List (List (BoundedLiteral n))) (as : List (BoundedLiteral n))
    (has : Trail.Consistent as) {c : Level} {f : Watched n cs.length}
    (H : Decided (ofClauses cs) as c f) (hu : f.isUnsatisfiable = false) :
    Vigilant f ∧ ∀ i, f.body i = (cs.get i).eraseDups := by
  have hpropagated : (freshLaws cs).Propagated c f := Laws.propagated (pending_ofClauses cs) has H
  obtain ⟨A, As, -, hrests⟩ := hpropagated.exists_settled hu
  exact ⟨Rests.vigilant hrests trivial, hrests.stands.tracks.body⟩

/-- One clause of three literals: the first is decided to be false, so that its watch moves, then the
second to be true, and then both decisions are undone. -/
theorem vigilant_of_decided_three_literals :
    let cs : List (List (BoundedLiteral 3)) :=
      [[⟨⟨0⟩, by decide⟩, ⟨⟨2⟩, by decide⟩, ⟨⟨4⟩, by decide⟩]]
    let f := (ofClauses cs).assign ⟨⟨1⟩, by decide⟩ 1
    let g := f.assign ⟨⟨2⟩, by decide⟩ 2
    Decided (ofClauses cs) [] 2 g ∧ Vigilant g ∧
      Decided (ofClauses cs) [] 0 (g.backtrack 0) ∧ Vigilant (g.backtrack 0) := by
  intro cs f g
  -- no clause is ever left with one open literal, so propagation has nothing to do
  have hidle (k : Level) : (ofClauses cs).unitPropagate k = ofClauses cs ∧ f.unitPropagate k = f ∧
      g.unitPropagate k = g := by
    refine ⟨?_, ?_, ?_⟩ <;> exact unitPropagate_of_queue (by decide +kernel) (by decide +kernel)
  have H : Decided (ofClauses cs) [] 2 g := by
    have hstart : Decided (ofClauses cs) [] 0 ((ofClauses cs).unitPropagate 0) := .start
    rw [(hidle 0).1] at hstart
    have hfirst : Decided (ofClauses cs) [] 1 (f.unitPropagate 1) :=
      hstart.decide (by decide +kernel) (by decide +kernel)
    rw [(hidle 1).2.1] at hfirst
    have hsecond : Decided (ofClauses cs) [] 2 (g.unitPropagate 2) :=
      hfirst.decide (by decide +kernel) (by decide +kernel)
    rwa [(hidle 2).2.2] at hsecond
  have hundo : Decided (ofClauses cs) [] 0 (g.backtrack 0) := .undo H Nat.two_pos
  exact ⟨H, (vigilant_of_decided cs [] List.nodup_nil H (by decide +kernel)).1,
    hundo, (vigilant_of_decided cs [] List.nodup_nil hundo (by decide +kernel)).1⟩

end Watched

end Dpll
