import Dpll.Solver
import Mathlib.Logic.Relation

/-! The search is recursion over an explicit stack. `Parties.Returns` is the recursive procedure, as a
relation between its calls and what they return; a call that goes on forever returns nothing. Each call
runs the part of the search between entering a node and leaving it, whatever is pending below
(`Parties.Returns.reaches`). So the search comes to its end exactly if the recursion returns, with the
same answer and the same calls (`Parties.ends_iff_returns`). Nothing is assumed of the formula and the
heuristic. -/

namespace Dpll

/-- The formula and the heuristic of a search, and the calls made of them, oldest first. -/
structure Parties (σ : Type u) (η : Type v) (ℓ : Type w) where
  formula : σ
  heuristic : η
  calls : List (Call ℓ)

/-- What a node does once it has propagated: it has an answer, or decides a literal. -/
inductive NodeOutcome (ℓ : Type u) where
  | answer (satisfiable : Bool)
  | decide (literal : ℓ)

namespace Parties

variable {σ : Type u} {η : Type v} {ℓ : Type w} [Backtrackable σ ℓ] [DecisionSource η σ ℓ] [Neg ℓ]

/-! ### Calls -/

def unitPropagate (p : Parties σ η ℓ) (level : Level) : Parties σ η ℓ :=
  ⟨Backtrackable.unitPropagate p.formula level, p.heuristic, p.calls ++ [.unitPropagate level]⟩

def isSatisfied (p : Parties σ η ℓ) : Bool × Parties σ η ℓ :=
  let answer := Backtrackable.isSatisfied p.formula
  (answer, { p with calls := p.calls ++ [.isSatisfied answer] })

def isUnsatisfiable (p : Parties σ η ℓ) : Bool × Parties σ η ℓ :=
  let answer := Backtrackable.isUnsatisfiable p.formula
  (answer, { p with calls := p.calls ++ [.isUnsatisfiable answer] })

def suggest (p : Parties σ η ℓ) : Option ℓ × Parties σ η ℓ :=
  let (answer, heuristic) := DecisionSource.suggest p.heuristic p.formula
  (answer, ⟨p.formula, heuristic, p.calls ++ [.suggest answer]⟩)

def assign (p : Parties σ η ℓ) (l : ℓ) (level : Level) : Parties σ η ℓ :=
  ⟨Backtrackable.assign p.formula l level, p.heuristic, p.calls ++ [.assign l level]⟩

def backtrack (p : Parties σ η ℓ) (level : Level) : Parties σ η ℓ :=
  ⟨Backtrackable.backtrack p.formula level, p.heuristic, p.calls ++ [.backtrack level]⟩

/-! ### The recursive procedure -/

/-- Propagates at a level, asks whether that settles the formula, and if not, for a literal. -/
def visit (level : Level) (p : Parties σ η ℓ) : NodeOutcome ℓ × Parties σ η ℓ :=
  let p := p.unitPropagate level
  let (satisfied, p) := p.isSatisfied
  if satisfied then (.answer true, p)
  else
    let (unsatisfiable, p) := p.isUnsatisfiable
    if unsatisfiable then (.answer false, p)
    else
      match p.suggest with
      | (none, p) => (.answer true, p)
      | (some l, p) => (.decide l, p)

/-- A call of the recursive procedure at a level returns an answer. A decided literal is tried one level
above, and if that fails, everything above this level is undone and its negation tried. -/
inductive Returns : Level → Parties σ η ℓ → Bool → Parties σ η ℓ → Prop
  | answer {level : Level} {p q : Parties σ η ℓ} {satisfiable : Bool}
      (visit : p.visit level = (.answer satisfiable, q)) : Returns level p satisfiable q
  | decided {level : Level} {p q r : Parties σ η ℓ} {l : ℓ} (visit : p.visit level = (.decide l, q))
      (first : Returns (level + 1) (q.assign l (level + 1)) true r) : Returns level p true r
  | negated {level : Level} {p q r t : Parties σ η ℓ} {l : ℓ} {satisfiable : Bool}
      (visit : p.visit level = (.decide l, q))
      (first : Returns (level + 1) (q.assign l (level + 1)) false r)
      (second : Returns (level + 1) ((r.backtrack level).assign (-l) (level + 1)) satisfiable t) :
      Returns level p satisfiable t

/-- A call goes on forever. -/
def Diverges (level : Level) (p : Parties σ η ℓ) : Prop :=
  ∀ satisfiable q, ¬Returns level p satisfiable q

/-- A call returns once at most. -/
theorem Returns.unique {level : Level} {p q r : Parties σ η ℓ} {a b : Bool} (h : Returns level p a q)
    (h' : Returns level p b r) : a = b ∧ q = r := by
  induction h generalizing b r with
  | answer hvisit =>
    cases h' with
    | answer hvisit' =>
      cases hvisit.symm.trans hvisit'
      exact ⟨rfl, rfl⟩
    | decided hvisit' | negated hvisit' => cases hvisit.symm.trans hvisit'
  | decided hvisit _ ih =>
    cases h' with
    | answer hvisit' => cases hvisit.symm.trans hvisit'
    | decided hvisit' hfirst =>
      cases hvisit.symm.trans hvisit'
      exact ih hfirst
    | negated hvisit' hfirst =>
      cases hvisit.symm.trans hvisit'
      cases (ih hfirst).1
  | negated hvisit _ _ ihfirst ihsecond =>
    cases h' with
    | answer hvisit' => cases hvisit.symm.trans hvisit'
    | decided hvisit' hfirst =>
      cases hvisit.symm.trans hvisit'
      cases (ihfirst hfirst).1
    | negated hvisit' hfirst hsecond =>
      cases hvisit.symm.trans hvisit'
      obtain ⟨-, rfl⟩ := ihfirst hfirst
      exact ihsecond hsecond

/-- The search that these parties have come to. Before their calls its journal was `j`. -/
def search (p : Parties σ η ℓ) (j : Journal (Call ℓ)) (frames : List (Frame ℓ)) (step : Step) :
    Search σ η ℓ :=
  ⟨p.formula, p.heuristic, frames, step, p.calls.foldl Journal.note j⟩

end Parties

namespace Search

variable {σ : Type u} {η : Type v} {ℓ : Type w} [Backtrackable σ ℓ] [DecisionSource η σ ℓ] [Neg ℓ]

/-- Steps of the search lead from `s` to `t`. -/
def Reaches : Search σ η ℓ → Search σ η ℓ → Prop :=
  Relation.ReflTransGen fun s t => s.advance = some t

/-- The search `s` comes to its end in `t`. -/
def Ends (s t : Search σ η ℓ) : Prop := s.Reaches t ∧ t.advance = none

variable {s t : Search σ η ℓ} {depth : Nat}

theorem run_of_advance (h : s.advance = some t) :
    s.run depth = if t.frames.length ≤ depth then t.run depth else none := by
  rw [run]
  split
  · rename_i hnone
    rw [hnone] at h
    cases h
  · rename_i t' ht
    obtain rfl : t' = t := Option.some.inj (ht.symm.trans h)
    rfl

theorem run_of_end (h : s.advance = none) : s.run depth = some s := by
  rw [run]
  split
  · rfl
  · rename_i t ht
    rw [ht] at h
    cases h

/-- A search with a bound on the pending decisions takes the steps of the search without one. -/
theorem ends_of_run (h : s.run depth = some t) : s.Ends t := by
  fun_induction run depth s with
  | case1 s hs =>
    obtain rfl := Option.some.inj h
    exact ⟨.refl, hs⟩
  | case2 s u hu _ ih =>
    obtain ⟨hreach, hend⟩ := ih h
    exact ⟨.head hu hreach, hend⟩
  | case3 => cases h

/-- A search that comes to its end does so under every bound that is high enough. -/
theorem exists_run_of_ends (h : s.Ends t) : ∃ bound, ∀ depth ≥ bound, s.run depth = some t := by
  obtain ⟨hreach, hend⟩ := h
  induction hreach using Relation.ReflTransGen.head_induction_on with
  | refl => exact ⟨0, fun depth _ => run_of_end hend⟩
  | @head s u hu _ ih =>
    obtain ⟨bound, hbound⟩ := ih
    refine ⟨max bound u.frames.length, fun depth hdepth => ?_⟩
    rw [run_of_advance hu, if_pos (Nat.le_trans (Nat.le_max_right ..) hdepth)]
    exact hbound depth (Nat.le_trans (Nat.le_max_left ..) hdepth)

/-- A bound on the pending decisions lets the search come along its steps, or stops it. -/
theorem run_of_reaches (h : s.Reaches t) : s.run depth = t.run depth ∨ s.run depth = none := by
  induction h using Relation.ReflTransGen.head_induction_on with
  | refl => exact .inl rfl
  | head hu _ ih =>
    rw [run_of_advance hu]
    split
    · exact ih
    · exact .inr rfl

end Search

namespace Parties

open Search

variable {σ : Type u} {η : Type v} {ℓ : Type w} [Backtrackable σ ℓ] [DecisionSource η σ ℓ] [Neg ℓ]
  {p q : Parties σ η ℓ} {j : Journal (Call ℓ)} {frames : List (Frame ℓ)} {level : Level} {l : ℓ}
  {depth : Nat}

/-! ### One step of the search -/

theorem advance_enter (p : Parties σ η ℓ) : (p.search j frames (.enter level)).advance = some
    (match p.visit level with
    | (.answer satisfiable, p) => p.search j frames (.leave satisfiable)
    | (.decide l, p) =>
      (p.assign l (level + 1)).search j (⟨level, l, .decided⟩ :: frames) (.enter (level + 1))) := by
  change some (Search.enter _ level) = _
  congr 1
  unfold Search.enter visit
  dsimp only [search, note, Parties.unitPropagate, Parties.isSatisfied, Parties.isUnsatisfiable,
    Parties.suggest]
  split
  · simp
  split
  · simp
  cases (DecisionSource.suggest p.heuristic (Backtrackable.unitPropagate p.formula level)).1 with
  | none => simp
  | some l => simp [Parties.assign, Search.assign, note]

theorem advance_answer {satisfiable : Bool} (h : p.visit level = (.answer satisfiable, q)) :
    (p.search j frames (.enter level)).advance = some (q.search j frames (.leave satisfiable)) := by
  rw [advance_enter, h]

theorem advance_decide (h : p.visit level = (.decide l, q)) :
    (p.search j frames (.enter level)).advance = some ((q.assign l (level + 1)).search j
      (⟨level, l, .decided⟩ :: frames) (.enter (level + 1))) := by
  rw [advance_enter, h]

theorem advance_leave_true (p : Parties σ η ℓ) (frame : Frame ℓ) :
    (p.search j (frame :: frames) (.leave true)).advance = some (p.search j frames (.leave true)) :=
  rfl

/-- A failed literal is followed by its negation. -/
theorem advance_leave_decided (p : Parties σ η ℓ) :
    (p.search j (⟨level, l, .decided⟩ :: frames) (.leave false)).advance =
      some (((p.backtrack level).assign (-l) (level + 1)).search j
        (⟨level, l, .negated⟩ :: frames) (.enter (level + 1))) := by
  simp [advance, search, resume, Search.assign, note, Parties.assign, Parties.backtrack]

theorem advance_leave_negated (p : Parties σ η ℓ) (satisfiable : Bool) :
    (p.search j (⟨level, l, .negated⟩ :: frames) (.leave satisfiable)).advance =
      some (p.search j frames (.leave satisfiable)) := by
  simp [advance, search, resume]

/-! ### From entering a node to leaving it -/

/-- A call of the recursion that returns is the search from entering its node to leaving it. -/
theorem Returns.reaches {satisfiable : Bool} (h : Returns level p satisfiable q) :
    (p.search j frames (.enter level)).Reaches (q.search j frames (.leave satisfiable)) := by
  induction h generalizing frames with
  | answer hvisit => exact .single (advance_answer hvisit)
  | decided hvisit _ ih => exact .head (advance_decide hvisit) (ih.tail (advance_leave_true _ _))
  | negated hvisit _ _ ihfirst ihsecond =>
    refine .head (advance_decide hvisit) (ihfirst.trans ?_)
    exact .head (advance_leave_decided _) (ihsecond.tail (advance_leave_negated _ _))

theorem returns_or_diverges (level : Level) (p : Parties σ η ℓ) :
    (∃ satisfiable q, Returns level p satisfiable q) ∨ Diverges level p :=
  Classical.or_iff_not_imp_left.mpr fun h satisfiable q hq => h ⟨satisfiable, q, hq⟩

/-- A call that goes on forever decides a literal, and one of its two branches goes on forever. -/
theorem Diverges.exists_branch (h : Diverges level p) : ∃ l q, p.visit level = (.decide l, q) ∧
    (Diverges (level + 1) (q.assign l (level + 1)) ∨
      ∃ r, Returns (level + 1) (q.assign l (level + 1)) false r ∧
        Diverges (level + 1) ((r.backtrack level).assign (-l) (level + 1))) := by
  rcases hvisit : p.visit level with ⟨satisfiable | l, q⟩
  · exact absurd (.answer hvisit) (h satisfiable q)
  · refine ⟨l, q, rfl, ?_⟩
    rcases returns_or_diverges (level + 1) (q.assign l (level + 1)) with
      ⟨satisfiable, r, hfirst⟩ | hfirst
    · cases satisfiable with
      | true => exact absurd (.decided hvisit hfirst) (h true r)
      | false =>
        exact .inr ⟨r, hfirst, fun satisfiable t hsecond =>
          h satisfiable t (.negated hvisit hfirst hsecond)⟩
    · exact .inl hfirst

/-- Every bound on the pending decisions stops the search at a node that the recursion never leaves.
The induction is on how many more may be pending. -/
theorem Diverges.run_eq_none (k : Nat) (hk : depth ≤ frames.length + k) (h : Diverges level p) :
    (p.search j frames (.enter level)).run depth = none := by
  induction k generalizing p level frames with
  | zero =>
    obtain ⟨l, q, hvisit, -⟩ := h.exists_branch
    rw [run_of_advance (advance_decide hvisit)]
    exact if_neg (Nat.not_le_of_lt (Nat.lt_succ_of_le hk))
  | succ k ih =>
    obtain ⟨l, q, hvisit, hbranch⟩ := h.exists_branch
    have hk' (frame : Frame ℓ) : depth ≤ (frame :: frames).length + k := by
      rw [List.length_cons]
      omega
    rw [run_of_advance (advance_decide hvisit), ite_eq_right_iff]
    intro _
    rcases hbranch with hfirst | ⟨r, hfirst, hsecond⟩
    · exact ih (hk' _) hfirst
    · have hreach : Reaches ((q.assign l (level + 1)).search j (⟨level, l, .decided⟩ :: frames)
          (.enter (level + 1))) (((r.backtrack level).assign (-l) (level + 1)).search j
          (⟨level, l, .negated⟩ :: frames) (.enter (level + 1))) :=
        hfirst.reaches.tail (advance_leave_decided r)
      apply (run_of_reaches hreach).elim
      · intro heq
        exact heq.trans (ih (hk' _) hsecond)
      · exact id

/-- The search comes to its end exactly if the recursion returns. -/
theorem ends_iff_returns (p : Parties σ η ℓ) {t : Search σ η ℓ} :
    (p.search j [] (.enter level)).Ends t ↔
      ∃ satisfiable q, Returns level p satisfiable q ∧ t = q.search j [] (.leave satisfiable) := by
  constructor
  · intro hends
    obtain ⟨bound, hbound⟩ := exists_run_of_ends hends
    rcases returns_or_diverges level p with ⟨satisfiable, q, hreturns⟩ | hdiverges
    · refine ⟨satisfiable, q, hreturns, Option.some.inj ?_⟩
      -- both ends are reached, and the steps of the search are determined
      have hends' : (p.search j [] (.enter level)).Ends (q.search j [] (.leave satisfiable)) :=
        ⟨hreturns.reaches, rfl⟩
      obtain ⟨bound', hbound'⟩ := exists_run_of_ends hends'
      rw [← hbound _ (Nat.le_max_left bound bound'), hbound' _ (Nat.le_max_right bound bound')]
    · have hnone : (p.search j [] (.enter level)).run bound = none :=
        hdiverges.run_eq_none bound (Nat.le_add_left ..)
      cases hnone.symm.trans (hbound bound (Nat.le_refl _))
  · rintro ⟨satisfiable, q, hreturns, rfl⟩
    exact ⟨hreturns.reaches, rfl⟩

/-- The end of a search that these parties have come to, with the calls it recorded. -/
def finished (p : Parties σ η ℓ) (satisfiable : Bool) : Finished σ η ℓ :=
  ⟨satisfiable, p.formula, p.heuristic, p.calls⟩

theorem entries_foldl_note (entries : List α) :
    (entries.foldl Journal.note Journal.blank).entries = entries := by
  suffices H : ∀ pages : List α,
      (entries.foldl Journal.note ⟨some pages⟩).entries = pages.reverse ++ entries from H []
  induction entries with
  | nil => simp [Journal.entries]
  | cons entry entries ih =>
    intro pages
    rw [List.foldl_cons]
    exact (ih (entry :: pages)).trans (by simp)

theorem search?_of_run {f : σ} {h : η} {satisfiable : Bool}
    (hrun : (start f h .blank).run depth = some (p.search .blank [] (.leave satisfiable))) :
    search? depth f h .blank = some (p.finished satisfiable) := by
  have hcalls : (p.calls.foldl Journal.note .blank).entries = p.calls := entries_foldl_note p.calls
  rw [search?, hrun]
  simp [search, answer?, finished, hcalls]

end Parties

section

variable {σ : Type u} {η : Type v} {ℓ : Type w} [Backtrackable σ ℓ] [DecisionSource η σ ℓ] [Neg ℓ]

/-- Over every formula and with every heuristic, the search is the recursive procedure. It comes to
its end exactly if the recursion returns, with its answer, its formula, its heuristic and its calls.
A search with a bound on the pending decisions has an answer exactly if the recursion returns and
the bound is high enough. -/
theorem search_recursive (f : σ) (h : η) :
    (∀ j t, (Search.start f h j).Ends t ↔
      ∃ satisfiable p, Parties.Returns 0 ⟨f, h, []⟩ satisfiable p ∧
        t = p.search j [] (.leave satisfiable)) ∧
    (∀ r, (∃ depth, search? depth f h .blank = some r) ↔
      ∃ satisfiable p, Parties.Returns 0 ⟨f, h, []⟩ satisfiable p ∧
        r = p.finished satisfiable) ∧
    ∀ r, (∃ bound, ∀ depth ≥ bound, search? depth f h .blank = some r) ↔
      ∃ satisfiable p, Parties.Returns 0 ⟨f, h, []⟩ satisfiable p ∧
        r = p.finished satisfiable := by
  have hends (j t) : (Search.start f h j).Ends t ↔
      ∃ satisfiable p, Parties.Returns 0 ⟨f, h, []⟩ satisfiable p ∧
        t = p.search j [] (.leave satisfiable) := Parties.ends_iff_returns ⟨f, h, []⟩
  -- a bound under which the search has an answer leads to its end
  have hanswer {depth r} (hr : search? depth f h .blank = some r) :
      ∃ satisfiable p, Parties.Returns 0 ⟨f, h, []⟩ satisfiable p ∧
        r = p.finished satisfiable := by
    obtain ⟨t, ht, -⟩ := Option.bind_eq_some_iff.mp hr
    obtain ⟨satisfiable, p, hreturns, rfl⟩ := (hends _ _).mp (Search.ends_of_run ht)
    refine ⟨satisfiable, p, hreturns, ?_⟩
    exact Option.some.inj (hr.symm.trans (Parties.search?_of_run ht))
  have hbound {satisfiable p} (hreturns : Parties.Returns 0 ⟨f, h, []⟩ satisfiable p) :
      ∃ bound, ∀ depth ≥ bound, search? depth f h .blank = some (p.finished satisfiable) := by
    obtain ⟨bound, hrun⟩ := Search.exists_run_of_ends ((hends .blank _).mpr ⟨_, p, hreturns, rfl⟩)
    exact ⟨bound, fun depth hdepth => Parties.search?_of_run (hrun depth hdepth)⟩
  refine ⟨hends, fun r => ⟨?_, ?_⟩, fun r => ⟨?_, ?_⟩⟩
  · rintro ⟨depth, hr⟩
    exact hanswer hr
  · rintro ⟨satisfiable, p, hreturns, rfl⟩
    obtain ⟨bound, hrun⟩ := hbound hreturns
    exact ⟨bound, hrun bound (Nat.le_refl bound)⟩
  · rintro ⟨bound, hrun⟩
    exact hanswer (hrun bound (Nat.le_refl bound))
  · rintro ⟨satisfiable, p, hreturns, rfl⟩
    exact hbound hreturns

end

end Dpll
