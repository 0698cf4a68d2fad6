import Dpll.Proofs.Adjacency.Laws
import Dpll.Proofs.Watched.Laws

/-! The two representations in lockstep. A formula that keeps the laws of a run of decisions computes
the closure of the literals in force under unit propagation, on its own level and on every level below
(`Laws.Computes`). The closure does not depend on the order in which literals are forced, so two
formulas of the same clauses agree after the same moves (`lockstep_agree`). -/

namespace Dpll

open Backtrackable

variable {n : Nat}

/-- Propagation refutes every literal of some clause. -/
def Conflicts (cs : List (List (BoundedLiteral n))) (P : BoundedLiteral n → Prop) : Prop :=
  ∃ c ∈ cs, ∀ l ∈ c, UnitClosure cs P (-l)

/-- The literals are those that propagation forces from the base. -/
def Closes (cs : List (List (BoundedLiteral n))) (P : BoundedLiteral n → Prop)
    (A : List (BoundedLiteral n)) : Prop :=
  ∀ l, l ∈ A ↔ UnitClosure cs P l

/-- The trails below a level are the closures of the assumptions `as` with the decisions that were in
force there. -/
inductive Layered (cs : List (List (BoundedLiteral n))) (as : List (BoundedLiteral n)) :
    List (BoundedLiteral n) → List (Trail n) → Prop
  | nil : Layered cs as [] []
  | cons : Layered cs as ds As → Closes cs (· ∈ ds ++ as) A → Layered cs as (d :: ds) (A :: As)

section

variable {σ τ : Type} [Backtrackable σ (BoundedLiteral n)] [Backtrackable τ (BoundedLiteral n)]

/-- The formula has the closure of the assumptions `as` with the decisions `ds`, or a conflict in it. -/
inductive Laws.Computes {cs : List (List (BoundedLiteral n))} (L : Laws σ cs)
    (as ds : List (BoundedLiteral n)) (f : σ) : Prop
  | settled (layered : Layered cs as ds As) (settled : L.Settled A As f)
    (closes : Closes cs (· ∈ ds ++ as) A)
  | failed (layered : Layered cs as ds As) (failed : L.Failed As f)
    (conflicts : Conflicts cs (· ∈ ds ++ as))

/-- Two formulas that started as `f` and `g`, after the same moves: the literals `as` made true at level
zero, and then decisions and returns to lower levels, with propagation after every step up. The
decisions in force are listed newest first, and their number is the level. -/
inductive Lockstep (f : σ) (g : τ) (as : List (BoundedLiteral n)) :
    List (BoundedLiteral n) → σ → τ → Prop
  | start : Lockstep f g as []
      (unitPropagate (as.foldl (fun f l => assign f l 0) f) 0)
      (unitPropagate (as.foldl (fun g l => assign g l 0) g) 0)
  | decide : Lockstep f g as ds f' g' → isUnsatisfiable f' = false →
      Trail.Open (assignment f') l → Lockstep f g as (l :: ds)
        (unitPropagate (assign f' l (ds.length + 1)) (ds.length + 1))
        (unitPropagate (assign g' l (ds.length + 1)) (ds.length + 1))
  | undo : Lockstep f g as ds f' g' → k < ds.length →
      Lockstep f g as (ds.drop (ds.length - k)) (backtrack f' k) (backtrack g' k)

/-- Two formulas answer the same, and their true literals are those that propagation forces. -/
structure Agree (cs : List (List (BoundedLiteral n))) (P : BoundedLiteral n → Prop) (f : σ) (g : τ) :
    Prop where
  isUnsatisfiable : isUnsatisfiable f = isUnsatisfiable g
  left : Backtrackable.isUnsatisfiable f = false → Closes cs P (assignment f)
  right : Backtrackable.isUnsatisfiable g = false → Closes cs P (assignment g)

/-- Propagation at a level, if it ends without a conflict, forces equally many literals in both. -/
def ForceAlike (f : σ) (g : τ) (k : Level) : Prop :=
  isUnsatisfiable (unitPropagate f k) = false → ∃ d,
    propagationSteps (unitPropagate f k) = propagationSteps f + d ∧
      propagationSteps (unitPropagate g k) = propagationSteps g + d

end

variable {cs : List (List (BoundedLiteral n))} {as ds : List (BoundedLiteral n)} {A B : Trail n}
  {As : List (Trail n)} {P : BoundedLiteral n → Prop} {l : BoundedLiteral n} {k : Level}

/-- A settled trail refutes no clause. -/
theorem Closes.not_conflicts (H : Closes cs P A) (hA : A.Consistent) (hs : ∀ c ∈ cs, A.Settles c) :
    ¬Conflicts cs P := by
  rintro ⟨c, hc, hfalse⟩
  exact hA.not_settles (fun l hl => (H (-l)).mpr (hfalse l hl)) (hs c hc)

theorem Closes.perm (HA : Closes cs P A) (HB : Closes cs P B) (hA : A.Consistent)
    (hB : B.Consistent) : A.Perm B :=
  (List.perm_ext_iff_of_nodup (.of_map _ hA) (.of_map _ hB)).mpr fun l => (HA l).trans (HB l).symm

theorem Layered.length_eq (H : Layered cs as ds As) : As.length = ds.length := by
  induction H with
  | nil => rfl
  | cons _ _ ih => rw [List.length_cons, ih, List.length_cons]

/-- A level below has its trail among the layers. -/
theorem Layered.exists_append (H : Layered cs as ds As) (hk : k < ds.length) :
    ∃ Bs B Cs, As = Bs ++ B :: Cs ∧ Cs.length = k ∧
      Layered cs as (ds.drop (ds.length - k)) Cs ∧
      Closes cs (· ∈ ds.drop (ds.length - k) ++ as) B := by
  induction H with
  | nil => cases hk
  | @cons ds As A d H hA ih =>
    rw [List.length_cons] at hk ⊢
    rcases Nat.lt_succ_iff_lt_or_eq.mp hk with hlt | rfl
    · obtain ⟨Bs, B, Cs, rfl, hlen, hCs, hB⟩ := ih hlt
      have hdrop : (d :: ds).drop (ds.length + 1 - k) = ds.drop (ds.length - k) := by
        rw [Nat.succ_sub (Nat.le_of_lt hlt), List.drop_succ_cons]
      rw [hdrop]
      exact ⟨A :: Bs, B, Cs, rfl, hlen, hCs, hB⟩
    · have hdrop : (d :: ds).drop (ds.length + 1 - ds.length) = ds := by
        rw [Nat.add_sub_cancel_left, List.drop_one, List.tail_cons]
      rw [hdrop]
      exact ⟨[], A, As, rfl, H.length_eq, H, hA⟩

section

variable {σ τ : Type} [Backtrackable σ (BoundedLiteral n)] [Backtrackable τ (BoundedLiteral n)]
  {L : Laws σ cs} {M : Laws τ cs} {f : σ} {g : τ}

namespace Laws

/-- Propagation computes the closure of a base from any trail between the two. -/
theorem Computes.propagate (hL : L.Settles) (hf : L.Pending B As f) (hlayers : Layered cs as ds As)
    (hbase : ∀ l ∈ ds ++ as, l ∈ B) (hB : ∀ l ∈ B, UnitClosure cs (· ∈ ds ++ as) l) :
    L.Computes as ds (unitPropagate f As.length) := by
  rcases L.propagate hf with ⟨new, hset, -, hnew⟩ | ⟨hfail, c, hc, hfalse⟩
  · refine .settled hlayers hset fun l => ?_
    have hforces : Forces cs B (new ++ B) := ⟨new, rfl, hnew⟩
    refine (UnitClosure.iff_mem_of_settles (L.consistent hset) (fun c => hL hset c) ?_ ?_).symm
    · exact fun x hx => hforces.subset (hbase x hx)
    · exact fun x hx => (hforces.closure x hx).trans hB
  · exact .failed hlayers hfail ⟨c, hc, fun l hl => (hfalse l hl).trans hB⟩

namespace Computes

theorem isUnsatisfiable_iff (hL : L.Settles) (H : L.Computes as ds f) :
    isUnsatisfiable f = true ↔ Conflicts cs (· ∈ ds ++ as) := by
  cases H with
  | settled _ hset hcl =>
    rw [L.not_unsatisfiable hset]
    exact iff_of_false (by simp) (hcl.not_conflicts (L.consistent hset) fun c => hL hset c)
  | failed _ hfail hc => exact iff_of_true (L.unsatisfiable hfail) hc

/-- Without a conflict the formula is settled. -/
theorem exists_settled (H : L.Computes as ds f) (hu : isUnsatisfiable f = false) :
    ∃ A As, Layered cs as ds As ∧ L.Settled A As f ∧ Closes cs (· ∈ ds ++ as) A := by
  cases H with
  | settled hlayers hset hcl => exact ⟨_, _, hlayers, hset, hcl⟩
  | failed _ hfail _ => exact absurd ((L.unsatisfiable hfail).symm.trans hu) (by simp)

theorem closes (H : L.Computes as ds f) (hu : isUnsatisfiable f = false) :
    Closes cs (· ∈ ds ++ as) (assignment f) := by
  obtain ⟨A, As, _, hset, hcl⟩ := H.exists_settled hu
  rw [L.assignment_eq hset]
  exact fun l => List.mem_reverse.trans (hcl l)

/-- A decided literal waits on top of the closure to be propagated. -/
theorem pending (H : L.Computes as ds f) (hu : isUnsatisfiable f = false)
    (hl : Trail.Open (assignment f) l) : ∃ A As, Layered cs as (l :: ds) (A :: As) ∧
      L.Pending (l :: A) (A :: As) (assign f l (ds.length + 1)) ∧ A.Consistent ∧
      Closes cs (· ∈ ds ++ as) A := by
  obtain ⟨A, As, hlayers, hset, hcl⟩ := H.exists_settled hu
  rw [L.assignment_eq hset] at hl
  have hopen : A.Open l := hl.mono fun x hx => List.mem_reverse.mpr hx
  rw [← hlayers.length_eq]
  exact ⟨A, As, .cons hlayers hcl, L.decide hset hopen, L.consistent hset, hcl⟩

theorem decide (hL : L.Settles) (H : L.Computes as ds f) (hu : isUnsatisfiable f = false)
    (hl : Trail.Open (assignment f) l) :
    L.Computes as (l :: ds) (unitPropagate (assign f l (ds.length + 1)) (ds.length + 1)) := by
  obtain ⟨A, As, hlayers, hpending, -, hcl⟩ := H.pending hu hl
  have hlen : (A :: As).length = ds.length + 1 := hlayers.length_eq
  rw [← hlen] at hpending ⊢
  refine .propagate hL hpending hlayers (fun x hx => ?_) fun x hx => ?_
  · rcases List.mem_cons.mp hx with rfl | hx
    · exact List.mem_cons_self
    · exact List.mem_cons_of_mem _ ((hcl x).mpr (.base hx))
  · rcases List.mem_cons.mp hx with rfl | hx
    · exact .base List.mem_cons_self
    · exact ((hcl x).mp hx).mono fun y => List.mem_cons_of_mem l

theorem undo (H : L.Computes as ds f) (hk : k < ds.length) :
    L.Computes as (ds.drop (ds.length - k)) (backtrack f k) := by
  cases H with
  | settled hlayers hset _ =>
    obtain ⟨Bs, B, Cs, rfl, rfl, hCs, hB⟩ := hlayers.exists_append hk
    exact .settled hCs (L.undo_settled hset) hB
  | failed hlayers hfail _ =>
    obtain ⟨Bs, B, Cs, rfl, rfl, hCs, hB⟩ := hlayers.exists_append hk
    exact .settled hCs (L.undo_failed hfail) hB

end Computes

theorem Computes.start (hL : L.Settles) (hf : L.Pending [] [] f) (has : Trail.Consistent as) :
    L.Computes as [] (unitPropagate (as.foldl (fun f l => assign f l 0) f) 0) := by
  have hrev : Trail.Consistent (as.reverse ++ []) := by
    rw [List.append_nil]
    exact Trail.consistent_reverse.mpr has
  refine .propagate hL (L.assume_all hf hrev) .nil (fun l hl => ?_) fun l hl => .base ?_
  · simpa using hl
  · simpa using hl

end Laws

theorem Agree.of_computes (hL : L.Settles) (hM : M.Settles) (hf : L.Computes as ds f)
    (hg : M.Computes as ds g) : Agree cs (· ∈ ds ++ as) f g where
  isUnsatisfiable := by
    rw [Bool.eq_iff_iff, hf.isUnsatisfiable_iff hL, hg.isUnsatisfiable_iff hM]
  left := hf.closes
  right := hg.closes

/-- What is missing from the other formula is open in it, too. -/
theorem Agree.open_right (H : Agree cs P f g) (hu : Backtrackable.isUnsatisfiable f = false)
    (hl : Trail.Open (assignment f) l) : Trail.Open (assignment g) l :=
  hl.mono fun x hx => (H.left hu x).mpr ((H.right (H.isUnsatisfiable ▸ hu) x).mp hx)

theorem Lockstep.computes {f₀ : σ} {g₀ : τ} (hL : L.Settles) (hM : M.Settles)
    (hf : L.Pending [] [] f₀) (hg : M.Pending [] [] g₀) (has : Trail.Consistent as)
    (H : Lockstep f₀ g₀ as ds f g) : L.Computes as ds f ∧ M.Computes as ds g := by
  induction H with
  | start => exact ⟨.start hL hf has, .start hM hg has⟩
  | decide _ hu hl ih =>
    have hagree := Agree.of_computes hL hM ih.1 ih.2
    exact ⟨ih.1.decide hL hu hl,
      ih.2.decide hM (hagree.isUnsatisfiable ▸ hu) (hagree.open_right hu hl)⟩
  | undo _ hk ih => exact ⟨ih.1.undo hk, ih.2.undo hk⟩

/-- Equally many literals are missing from two trails of the same literals. -/
theorem forceAlike_of_pending {B' : Trail n} {As' : List (Trail n)} (hf : L.Pending B As f)
    (hg : M.Pending B' As' g) (hAs : As.length = k) (hAs' : As'.length = k)
    (hB : B.length = B'.length) (hagree : Agree cs P (unitPropagate f k) (unitPropagate g k)) :
    ForceAlike f g k := by
  intro hu
  have hu' := hagree.isUnsatisfiable.symm.trans hu
  subst hAs
  rcases L.propagate hf with ⟨new, hset, hsteps, -⟩ | ⟨hfail, -⟩
  · have hpropagate := M.propagate hg
    rw [hAs'] at hpropagate
    rcases hpropagate with ⟨new', hset', hsteps', -⟩ | ⟨hfail, -⟩
    · have hperm := (hagree.left hu).perm (hagree.right hu')
        (L.assignment_eq hset ▸ Trail.consistent_reverse.mpr (L.consistent hset))
        (M.assignment_eq hset' ▸ Trail.consistent_reverse.mpr (M.consistent hset'))
      have hlen := hperm.length_eq
      rw [L.assignment_eq hset, M.assignment_eq hset', List.length_reverse, List.length_reverse,
        List.length_append, List.length_append, hB, Nat.add_right_cancel_iff] at hlen
      exact ⟨new.length, hsteps, hlen ▸ hsteps'⟩
    · exact absurd ((M.unsatisfiable hfail).symm.trans hu') (by simp)
  · exact absurd ((L.unsatisfiable hfail).symm.trans hu) (by simp)

end

/-- The two representations, started with the same clauses and the same literals, agree after the same
moves, and force equally many literals at every propagation without a conflict. -/
theorem lockstep_agree (cs : List (List (BoundedLiteral n))) (as : List (BoundedLiteral n))
    (has : Trail.Consistent as) :
    ForceAlike (as.foldl (fun f l => assign f l 0) (Adjacency.ofClauses cs))
      (as.foldl (fun g l => assign g l 0) (Watched.ofClauses cs)) 0 ∧
    ∀ ds f g, Lockstep (Adjacency.ofClauses cs) (Watched.ofClauses cs) as ds f g →
      Agree cs (· ∈ ds ++ as) f g ∧
      ∀ l, isUnsatisfiable f = false → Trail.Open (assignment f) l →
        ForceAlike (assign f l (ds.length + 1)) (assign g l (ds.length + 1)) (ds.length + 1) := by
  have hL : (Adjacency.laws cs).Settles := Adjacency.settles_laws cs
  have hM : (Watched.freshLaws cs).Settles := Watched.settles_freshLaws cs
  have hf : (Adjacency.laws cs).Pending [] [] (Adjacency.ofClauses cs) := Adjacency.stands_ofClauses
  have hg := Watched.pending_ofClauses cs
  have hcomputes {ds f g} (H : Lockstep (Adjacency.ofClauses cs) (Watched.ofClauses cs) as ds f g) :=
    H.computes hL hM hf hg has
  constructor
  · have hrev : Trail.Consistent (as.reverse ++ []) := by
      rw [List.append_nil]
      exact Trail.consistent_reverse.mpr has
    obtain ⟨hf', hg'⟩ := hcomputes .start
    exact forceAlike_of_pending (Laws.assume_all _ hf hrev) (Laws.assume_all _ hg hrev) rfl rfl rfl
      (.of_computes hL hM hf' hg')
  · intro ds f g H
    obtain ⟨hf', hg'⟩ := hcomputes H
    have hagree := Agree.of_computes hL hM hf' hg'
    refine ⟨hagree, fun l hu hl => ?_⟩
    obtain ⟨A, As, hlayers, hpending, hA, hcl⟩ := hf'.pending hu hl
    obtain ⟨B, Bs, hlayers', hpending', hB, hcl'⟩ :=
      hg'.pending (hagree.isUnsatisfiable ▸ hu) (hagree.open_right hu hl)
    have hlen : (l :: A).length = (l :: B).length := ((hcl.perm hcl' hA hB).cons l).length_eq
    obtain ⟨hf'', hg''⟩ := hcomputes (.decide H hu hl)
    exact forceAlike_of_pending hpending hpending' hlayers.length_eq hlayers'.length_eq hlen
      (.of_computes hL hM hf'' hg'')

/-- One clause of two literals, the first of which is decided to be false. -/
theorem lockstep_agree_two_literals :
    let cs : List (List (BoundedLiteral 2)) := [[⟨⟨0⟩, by decide⟩, ⟨⟨2⟩, by decide⟩]]
    let f := unitPropagate (Adjacency.ofClauses cs) 0
    let g := unitPropagate (Watched.ofClauses cs) 0
    Trail.Consistent ([] : List (BoundedLiteral 2)) ∧
      Lockstep (Adjacency.ofClauses cs) (Watched.ofClauses cs) [] [⟨⟨1⟩, by decide⟩]
        (unitPropagate (assign f ⟨⟨1⟩, by decide⟩ 1) 1)
        (unitPropagate (assign g ⟨⟨1⟩, by decide⟩ 1) 1) ∧
      Agree cs (· ∈ [⟨⟨1⟩, by decide⟩]) (unitPropagate (assign f ⟨⟨1⟩, by decide⟩ 1) 1)
        (unitPropagate (assign g ⟨⟨1⟩, by decide⟩ 1) 1) := by
  intro cs f g
  have hu : isUnsatisfiable f = false := by
    change (Adjacency.unitPropagate (Adjacency.ofClauses cs) 0).isUnsatisfiable = false
    decide +kernel
  have hnil : assignment f = [] := by
    change (Adjacency.unitPropagate (Adjacency.ofClauses cs) 0).assignment = []
    decide +kernel
  have H : Lockstep (Adjacency.ofClauses cs) (Watched.ofClauses cs) [] [⟨⟨1⟩, by decide⟩]
      (unitPropagate (assign f ⟨⟨1⟩, by decide⟩ 1) 1)
      (unitPropagate (assign g ⟨⟨1⟩, by decide⟩ 1) 1) :=
    .decide .start hu (by rw [hnil]; exact ⟨List.not_mem_nil, List.not_mem_nil⟩)
  exact ⟨List.nodup_nil, H, ((lockstep_agree cs [] List.nodup_nil).2 _ _ _ H).1⟩

end Dpll
