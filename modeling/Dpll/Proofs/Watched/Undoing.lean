import Dpll.Proofs.Moves
import Dpll.Proofs.Watched.Propagation

/-! Undoing everything above a level, whatever happened there. Above the level levels may go down and
literals may be made true again or false, so the trail may hold literals that are not true, and a
literal may be forgotten sooner than its level asks for. The trail and the log of the level stay below
what was added since (`Watched.Above`), so the undoing that goes down to the level meets them intact. -/

namespace Dpll

namespace Watched

variable {n m : Nat} {f g h : Watched n m} {l x : BoundedLiteral n} {i : Fin m} {c k L : Level}

/-- Undoing stops at a literal of the level or below. -/
theorem head_undoTrail (trail : List (BoundedLiteral n)) (levels : LiteralTable n (Option Level)) :
    ∀ y ∈ (undoTrail k trail levels).1.head?, ((undoTrail k trail levels).2.get y).any (· ≤ k) := by
  fun_induction undoTrail k trail levels with
  | case1 => simp
  | case2 l trail levels hl => simpa using hl
  | case3 l trail levels hl ih => exact ih

/-- What is undone of the literals `new` on top of literals that stay. -/
theorem exists_undoTrail_append {old : List (BoundedLiteral n)} (new : List (BoundedLiteral n))
    {levels : LiteralTable n (Option Level)} (hold : ∀ y ∈ old, (levels.get y).any (· ≤ k))
    (hnew : ∀ y ∈ new, y ∉ old) :
    ∃ rest, (undoTrail k (new ++ old) levels).1 = rest ++ old ∧ rest ⊆ new ∧
      (∀ y ∈ old, (undoTrail k (new ++ old) levels).2.get y = levels.get y) ∧
      ∀ y j, (undoTrail k (new ++ old) levels).2.get y = some j →
        levels.get y = some j ∧ (y ∈ new → y ∈ rest) := by
  induction new generalizing levels with
  | nil =>
    have hstop : undoTrail k old levels = (old, levels) := by
      cases old with
      | nil => rfl
      | cons y old => rw [undoTrail, if_pos (hold y List.mem_cons_self)]
    refine ⟨[], by rw [List.nil_append, hstop], List.Subset.refl _, fun y _ => ?_, ?_⟩
    · rw [List.nil_append, hstop]
    · rw [List.nil_append, hstop]
      exact fun y j hj => ⟨hj, id⟩
  | cons l new ih =>
    by_cases hl : (levels.get l).any (· ≤ k) = true
    · have hstop : undoTrail k (l :: new ++ old) levels = (l :: new ++ old, levels) := by
        rw [List.cons_append, undoTrail, if_pos hl]
      rw [hstop]
      exact ⟨l :: new, rfl, List.Subset.refl _, fun _ _ => rfl, fun y j hj => ⟨hj, id⟩⟩
    · have hstep : undoTrail k (l :: new ++ old) levels =
          undoTrail k (new ++ old) (levels.set l none) := by
        rw [List.cons_append, undoTrail, if_neg hl]
      have hlold : l ∉ old := hnew l List.mem_cons_self
      have hset (y) (hy : y ∈ old) : (levels.set l none).get y = levels.get y := by
        rw [LiteralTable.get_set, if_neg fun heq : l = y => hlold (heq ▸ hy)]
      have hold' (y) (hy : y ∈ old) : ((levels.set l none).get y).any (· ≤ k) = true :=
        hset y hy ▸ hold y hy
      obtain ⟨rest, htrail, hsub, hkept, hlevels⟩ :=
        ih hold' fun y hy => hnew y (List.mem_cons_of_mem l hy)
      rw [hstep]
      refine ⟨rest, htrail, List.Subset.trans hsub (List.subset_cons_self _ _), fun y hy => ?_,
        fun y j hj => ?_⟩
      · rw [hkept y hy, hset y hy]
      · obtain ⟨hget, hmem⟩ := hlevels y j hj
        rw [LiteralTable.get_set] at hget
        split at hget
        · cases hget
        · rename_i hly
          refine ⟨hget, fun hy => hmem ?_⟩
          exact (List.mem_cons.mp hy).resolve_left (Ne.symm hly)

/-- The formula `g` came from `f` by calls above level `L`. -/
structure Above (L : Level) (f g : Watched n m) : Prop where
  placed : Placed g
  logged : Logged g
  body : ∀ i, g.body i = f.body i
  hasEmptyClause : g.hasEmptyClause = f.hasEmptyClause
  satisfied : ∃ new, g.satisfied = new ++ f.satisfied ∧ ∀ e ∈ new, L < e.2
  trail : ∃ new : Trail n, g.trail = new ++ f.trail ∧ (∀ x ∈ new, Trail.Open f.trail x) ∧
    ∀ x j, g.levels.get x = some j → x ∉ f.trail → L < j ∧ x ∈ new
  levels : ∀ x ∈ f.trail, g.levels.get x = f.levels.get x

namespace Above

theorem refl (hp : Placed f) (hl : Logged f) (ht : Timely f c) : Above L f f where
  placed := hp
  logged := hl
  body _ := rfl
  hasEmptyClause := rfl
  satisfied := ⟨[], rfl, nofun⟩
  trail := by
    refine ⟨[], rfl, nofun, fun x j hj hx => absurd ((ht.isTrue x).mp ?_) hx⟩
    rw [isTrue, hj, Option.isSome_some]
  levels _ _ := rfl

theorem maintains (H : Above L f g) (hk : L < k) (hm : Maintains x k g h) (hp : Placed h)
    (hl : Logged h) : Above L f h where
  placed := hp
  logged := hl
  body i := (hm.body i).trans (H.body i)
  hasEmptyClause := hm.hasEmptyClause.trans H.hasEmptyClause
  satisfied := by
    obtain ⟨new, heq, hnew⟩ := H.satisfied
    obtain ⟨new', heq', hnew'⟩ := hm.satisfied
    refine ⟨new' ++ new, by rw [heq', heq, List.append_assoc], fun e he => ?_⟩
    rcases List.mem_append.mp he with he | he
    · exact (hnew' e he).1 ▸ hk
    · exact hnew e he
  trail := hm.trail ▸ hm.levels ▸ H.trail
  levels := hm.levels ▸ H.levels

theorem retains (H : Above L f g) (hr : Retains g h) (hl : Logged h) : Above L f h where
  placed := hr.placed H.placed
  logged := hl
  body i := (hr.body i).trans (H.body i)
  hasEmptyClause := hr.hasEmptyClause.trans H.hasEmptyClause
  satisfied := hr.satisfied ▸ H.satisfied
  trail := hr.trail ▸ hr.levels ▸ H.trail
  levels := hr.levels ▸ H.levels

theorem fix (H : Above L f g) (hk : L < k) (ho : Trail.Open f.trail l) : Above L f (g.fix l k) where
  placed := H.placed.fix
  logged := H.logged.fix
  body := H.body
  hasEmptyClause := H.hasEmptyClause
  satisfied := H.satisfied
  trail := by
    obtain ⟨new, heq, hopen, hlevel⟩ := H.trail
    refine ⟨l :: new, congrArg (l :: ·) heq, fun x hx => ?_, fun x j hj hx => ?_⟩
    · rcases List.mem_cons.mp hx with rfl | hx
      · exact ho
      · exact hopen x hx
    · rw [Watched.fix, LiteralTable.get_set] at hj
      split at hj
      · rename_i hlx
        exact ⟨Option.some.inj hj ▸ hk, hlx ▸ List.mem_cons_self⟩
      · obtain ⟨hL, hmem⟩ := hlevel x j hj hx
        exact ⟨hL, List.mem_cons_of_mem l hmem⟩
  levels x hx := by
    rw [Watched.fix, LiteralTable.get_set, if_neg fun hlx : l = x => ho.1 (hlx ▸ hx)]
    exact H.levels x hx

theorem assign (H : Above L f g) (hk : L < k) (ho : Trail.Open f.trail l) :
    Above L f (g.assign l k) := by
  obtain ⟨hm, hp, hl⟩ := maintains_assign (k := k) (l := l) H.placed H.logged
  exact (H.fix hk ho).maintains hk hm hp hl

theorem open_of_isOpen (H : Above L f g) (ht : Timely f c) (ho : g.isOpen l = true) :
    Trail.Open f.trail l := by
  have htrue (x) (hx : x ∈ f.trail) : g.isTrue x = true := by
    rw [isTrue, H.levels x hx]
    exact (ht.isTrue x).mpr hx
  simp only [isOpen, Bool.and_eq_true, Bool.not_eq_true', Bool.eq_false_iff] at ho
  exact ⟨fun hl => ho.1 (htrue l hl), fun hl => ho.2 (htrue _ hl)⟩

theorem examine (H : Above L f g) (ht : Timely f c) (hk : L < k) : Above L f (g.examine i k) := by
  have hE := examine_cases g i k
  generalize g.examine i k = h at hE ⊢
  cases hE with
  | known => exact H
  | satisfied hs =>
    obtain ⟨y, hy⟩ := hs
    have hm : Maintains y k g (g.markSatisfied i k) := .markSatisfied ⟨y, hy⟩
    exact H.maintains hk hm H.placed.markSatisfied H.logged.markSatisfied
  | falsified | several =>
    exact H.retains retains_report H.logged.report
  | @forced l hl ho =>
    have H' : Above L f { g with propagationSteps := g.propagationSteps + 1 } :=
      H.retains retains_report H.logged.report
    have A := H'.assign hk (H.open_of_isOpen ht ho)
    have hmark := maintains_markSatisfied_assign (x := l) (k := k) H'.placed H'.logged hl
    exact A.maintains hk hmark A.placed.markSatisfied A.logged.markSatisfied

theorem unitPropagate (H : Above L f g) (ht : Timely f c) (hk : L < k) :
    Above L f (g.unitPropagate k) := by
  obtain ⟨h, H', hend⟩ := unitPropagate_induction (k := k) H fun g i q hg _ hpop =>
    (hg.retains (retains_dequeue (i := i) (q := q)) (hg.logged.dequeue hpop)).examine ht hk
  rcases hend with ⟨-, heq⟩ | ⟨-, -, heq⟩
  · rw [heq]
    exact H'.retains retains_clearQueue H'.logged.clearQueue
  · rw [heq]
    exact H'

theorem backtrack (H : Above L f g) (ht : Timely f c) (hc : c ≤ L) (hk : L ≤ k) :
    Above L f (g.backtrack k) := by
  obtain ⟨log, hlog, hlogL⟩ := H.satisfied
  obtain ⟨new, htrail, hopen, hlevel⟩ := H.trail
  -- the literals of `f` are of level `k` at most, so undoing stops at the first of them
  have hold (y) (hy : y ∈ f.trail) : (g.levels.get y).any (· ≤ k) := by
    obtain ⟨j, hj⟩ := Option.isSome_iff_exists.mp ((ht.isTrue y).mpr hy)
    have hle := ht.ordered.le _ ((mem_timeline ht.isTrue).mpr hj)
    rw [H.levels y hy, hj, Option.any_some]
    exact decide_eq_true (Nat.le_trans hle (Nat.le_trans hc hk))
  obtain ⟨rest, heq, hsub, hkept, hlevels⟩ :=
    exists_undoTrail_append new hold fun y hy => (hopen y hy).1
  rw [← htrail] at heq hkept hlevels
  refine ⟨H.placed.backtrack, H.logged.backtrack, fun i => body_backtrack.trans (H.body i),
    hasEmptyClause_backtrack.trans H.hasEmptyClause, ⟨log.dropWhile (k < ·.2), ?_, fun e he => ?_⟩,
    ⟨rest, trail_backtrack.trans heq, fun x hx => hopen x (hsub hx), fun x j hj hx => ?_⟩,
    fun x hx => ?_⟩
  · -- so does the trimming of the log, although what is above need not be in order
    have hstay : f.satisfied.dropWhile (k < ·.2) = f.satisfied := by
      rw [dropWhile_eq_filter_of_sorted Prod.snd ht.sorted, List.filter_eq_self]
      intro e he
      exact decide_eq_true (Nat.le_trans (ht.le e he) (Nat.le_trans hc hk))
    rw [satisfied_backtrack, hlog, List.dropWhile_append]
    split
    · rename_i hnil
      rw [List.isEmpty_iff.mp hnil, hstay, List.nil_append]
    · rfl
  · exact hlogL e (List.dropWhile_subset _ he)
  · rw [levels_backtrack] at hj
    obtain ⟨hget, hmem⟩ := hlevels x j hj
    obtain ⟨hL, hxnew⟩ := hlevel x j hget hx
    exact ⟨hL, hmem hxnew⟩
  · rw [levels_backtrack, hkept x hx]
    exact H.levels x hx

/-- Undoing to the level restores the trail and the log. -/
theorem restored (H : Above L f g) (ht : Timely f c) (hc : c ≤ L) :
    (g.backtrack L).trail = f.trail ∧ (g.backtrack L).isTrue = f.isTrue ∧
      (g.backtrack L).satisfied = f.satisfied := by
  have H' := H.backtrack ht hc (Nat.le_refl L)
  obtain ⟨log, hlog, hlogL⟩ := H'.satisfied
  obtain ⟨new, htrail, hopen, hlevel⟩ := H'.trail
  have hnew : new = [] := by
    cases new with
    | nil => rfl
    | cons y new =>
      have hany := head_undoTrail (k := L) g.trail g.levels y
      rw [← trail_backtrack, ← levels_backtrack, htrail] at hany
      have hle := hany rfl
      cases hj : (g.backtrack L).levels.get y with
      | none => simp [hj] at hle
      | some j =>
        rw [hj, Option.any_some] at hle
        have hy := (hopen y List.mem_cons_self).1
        exact absurd (of_decide_eq_true hle) (Nat.not_le_of_lt (hlevel y j hj hy).1)
  have hnil : log = [] := by
    cases log with
    | nil => rfl
    | cons e log =>
      have hhead := List.head?_dropWhile_not (fun e : Fin m × Level => decide (L < e.2)) g.satisfied
      rw [← satisfied_backtrack, hlog] at hhead
      simpa using absurd (hlogL e List.mem_cons_self) (by simpa using hhead)
  subst hnew hnil
  refine ⟨htrail, funext fun y => ?_, hlog⟩
  by_cases hy : y ∈ f.trail
  · rw [isTrue, H'.levels y hy, isTrue]
  · have hnone : (g.backtrack L).levels.get y = none := by
      cases hj : (g.backtrack L).levels.get y with
      | none => rfl
      | some j => exact absurd (hlevel y j hj hy).2 List.not_mem_nil
    have hfalse : f.isTrue y = false := Bool.eq_false_iff.mpr (mt (ht.isTrue y).mp hy)
    rw [hfalse, isTrue, hnone, Option.isSome_none]

/-- Undoing to the level restores what the formula shows. -/
theorem shows (H : Above L f g) (hl : Logged f) (ht : Timely f c) (hc : c ≤ L) :
    (g.backtrack L).assignment = f.assignment ∧ (g.backtrack L).liveClauses = f.liveClauses ∧
      (g.backtrack L).isSatisfied = f.isSatisfied ∧
      (g.backtrack L).isUnsatisfiable = f.hasEmptyClause := by
  obtain ⟨htrail, htrue, hsatisfied⟩ := H.restored ht hc
  have hopen : (g.backtrack L).isOpen = f.isOpen := by
    funext y
    rw [isOpen, htrue, isOpen]
  have hknown (i) : ((g.backtrack L).clauses.get i).knownSatisfied =
      (f.clauses.get i).knownSatisfied := by
    have hg : (g.backtrack L).Known i ↔ f.Known i := by
      rw [H.logged.backtrack.known, hsatisfied, hl.known]
    exact Bool.eq_iff_iff.mpr hg
  refine ⟨congrArg List.reverse htrail, ?_, by rw [isSatisfied, hsatisfied, isSatisfied], ?_⟩
  · simp only [liveClauses_eq, hknown, hopen, body_backtrack, H.body]
  · rw [isUnsatisfiable, conflict_backtrack, Bool.or_false, hasEmptyClause_backtrack,
      H.hasEmptyClause]

theorem after (H : Above L f f) (ht : Timely f c) (hc : c ≤ L) {ms : Moves n}
    (h : ∀ m ∈ ms, m.Above L f.assignment) : Above L f (ms.after f) := by
  refine Moves.after_induction H ?assign ?propagate ?undo
  case assign =>
    intro g l k hm H'
    obtain ⟨hk, hl⟩ := h _ hm
    exact H'.assign hk (Trail.open_reverse.mp hl)
  case propagate => exact fun g k hm H' => H'.unitPropagate ht (h _ hm)
  case undo => exact fun g k hm H' => H'.backtrack ht hc (h _ hm)

end Above

end Watched

end Dpll
