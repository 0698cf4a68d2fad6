import Dpll.Proofs.Heuristic
import Dpll.Proofs.Search.Laws
import Dpll.Solver

/-! The search over a formula that keeps the laws of a run of decisions. The pending decisions are a
descent from the literals the search started with: below a decision whose negation is tried, the
decided literal has been refuted. One step keeps this (`Search.Sound.advance`), the descent is never
longer than the number of variables, and so the search ends with the right answer
(`Laws.search`). -/

namespace Dpll

open Backtrackable

namespace Journal

variable {α : Type u} {j : Journal α} {a b : α}

theorem mem_entries_note (h : a ∈ (j.note b).entries) : a = b ∨ a ∈ j.entries := by
  rcases j with ⟨_ | pages⟩
  · exact .inr h
  · simpa [note, entries, or_comm] using h

end Journal

variable {n : Nat}

/-- No model of the clauses makes the literals of `B` true. -/
def Refuted (cs : List (List (BoundedLiteral n))) (B : Trail n) : Prop :=
  ∀ v, Models cs v → ¬∀ l ∈ B, l.Holds v

/-- The lowest of the trails is forced by `T`. -/
def Rooted (cs : List (List (BoundedLiteral n))) (T : Trail n) (As : List (Trail n)) : Prop :=
  ∀ R, As.getLast? = some R → Forces cs T R

/-- The pending decisions lead from the literals of `T` down to those of a node. -/
inductive Descent (cs : List (List (BoundedLiteral n))) (T : Trail n) :
    List (Frame (BoundedLiteral n)) → Trail n → List (Trail n) → Prop
  | root : Descent cs T [] T []
  | decided : Descent cs T frames B As → Forces cs B A → A.Consistent → A.Open l →
    Descent cs T (⟨As.length, l, .decided⟩ :: frames) (l :: A) (A :: As)
  | negated : Descent cs T frames B As → Forces cs B A → A.Consistent → A.Open l →
    Refuted cs (l :: A) → Descent cs T (⟨As.length, l, .negated⟩ :: frames) (-l :: A) (A :: As)

section

variable {σ : Type} [Backtrackable σ (BoundedLiteral n)] {cs : List (List (BoundedLiteral n))}

/-- The search has found all clauses satisfied. -/
def Laws.Accepts (L : Laws σ cs) (T : Trail n) (f : σ) : Prop :=
  ∃ A As, L.Settled A As f ∧ Rooted cs T (A :: As) ∧ T ⊆ A ∧ (∀ c ∈ cs, A.Satisfies c) ∧
    (isSatisfied f = true ∨ L.Stuck)

/-- What holds of a search that started with the literals of `T`, whatever it does next. -/
inductive Search.Sound (L : Laws σ cs) (T : Trail n) (s : Search σ Heuristic (BoundedLiteral n)) :
    Prop
  | enter (step : s.step = .enter As.length) (descent : Descent cs T s.frames B As)
    (pending : L.Pending B As s.formula)
  | accept (step : s.step = .leave true) (le : s.frames.length ≤ n)
    (accepts : L.Accepts T s.formula)
  | reject {Bs : List (Trail n)} (step : s.step = .leave false)
    (descent : Descent cs T s.frames B As) (failed : L.Failed (Bs ++ As) s.formula)
    (rooted : Rooted cs T (Bs ++ As)) (refuted : Refuted cs B)

end

variable {cs : List (List (BoundedLiteral n))} {T A B : Trail n} {As : List (Trail n)}
  {l : BoundedLiteral n} {frames : List (Frame (BoundedLiteral n))}

theorem Refuted.of_closure {c : List (BoundedLiteral n)} (hc : c ∈ cs)
    (h : ∀ l ∈ c, UnitClosure cs (· ∈ B) (-l)) : Refuted cs B := fun _ hv hB =>
  UnitClosure.not_models hc h hB hv

theorem Refuted.of_forces (h : Refuted cs A) (hBA : Forces cs B A) : Refuted cs B :=
  fun v hv hB => h v hv (hBA.holds hv hB)

/-- A trail is refuted once a literal and its negation are refuted on top of it. -/
theorem Refuted.of_split (h : Refuted cs (l :: A)) (hneg : Refuted cs (-l :: A)) :
    Refuted cs A := by
  intro v hv hA
  by_cases hl : l.Holds v
  · exact h v hv (List.forall_mem_cons.mpr ⟨hl, hA⟩)
  · exact hneg v hv (List.forall_mem_cons.mpr ⟨Literal.holds_neg.mpr hl, hA⟩)

namespace Descent

/-- Every pending decision has fixed a variable of its own. -/
theorem add_length_le (h : Descent cs T frames B As) : T.length + frames.length ≤ B.length := by
  induction h with
  | root => exact Nat.le_refl _
  | decided _ hBA _ _ ih | negated _ hBA _ _ _ ih =>
    exact Nat.succ_le_succ (Nat.le_trans ih hBA.length_le)

theorem consistent (h : Descent cs T frames B As) (hT : T.Consistent) : B.Consistent := by
  cases h with
  | root => exact hT
  | decided _ _ hA hl => exact Trail.consistent_cons.mpr ⟨hl, hA⟩
  | negated _ _ hA hl _ => exact Trail.consistent_cons.mpr ⟨Trail.open_neg.mpr hl, hA⟩

theorem length_frames_le (h : Descent cs T frames B As) : frames.length ≤ n := by
  have hle := Nat.le_trans (Nat.le_add_left ..) h.add_length_le
  cases h with
  | root => exact Nat.zero_le n
  | decided _ _ hA hl =>
    exact Nat.le_trans hle (Trail.consistent_cons.mpr ⟨hl, hA⟩).length_le
  | negated _ _ hA hl _ =>
    exact Nat.le_trans hle (Trail.consistent_cons.mpr ⟨Trail.open_neg.mpr hl, hA⟩).length_le

theorem subset (h : Descent cs T frames B As) : T ⊆ B := by
  induction h with
  | root => exact List.Subset.refl _
  | decided _ hBA _ _ ih | negated _ hBA _ _ _ ih =>
    exact fun l hl => List.mem_cons_of_mem _ (hBA.subset (ih hl))

theorem rooted_cons (h : Descent cs T frames B As) (hBA : Forces cs B A) :
    Rooted cs T (A :: As) := by
  induction h generalizing A with
  | root =>
    intro R hR
    rw [List.getLast?_singleton, Option.some.injEq] at hR
    exact hR ▸ hBA
  | decided _ hBA' _ _ ih | negated _ hBA' _ _ _ ih =>
    intro R hR
    rw [List.getLast?_cons_cons] at hR
    exact ih hBA' R hR

theorem rooted (h : Descent cs T frames B As) : Rooted cs T As := by
  cases h with
  | root => exact fun R hR => by simp at hR
  | decided h hBA _ _ | negated h hBA _ _ _ => exact h.rooted_cons hBA

end Descent

variable {σ : Type} [Backtrackable σ (BoundedLiteral n)] {L : Laws σ cs}
  {s t : Search σ Heuristic (BoundedLiteral n)}

namespace Search

variable {j calls : Journal (Call (BoundedLiteral n))}

/-- Since the journal `j`, no node was left without a literal to decide, unless one may be. -/
def Noted (L : Laws σ cs) (j calls : Journal (Call (BoundedLiteral n))) : Prop :=
  Call.suggest none ∈ calls.entries → Call.suggest none ∈ j.entries ∨ L.Stuck

theorem Noted.note (h : Noted L j calls) (call : Call (BoundedLiteral n))
    (hcall : call ≠ .suggest none) : Noted L j (calls.note call) := fun hmem =>
  h ((Journal.mem_entries_note hmem).resolve_left fun heq => hcall heq.symm)

/-- A node is left satisfied or failed, or decides an open literal. -/
theorem enter_sound (hd : Descent cs T s.frames B As) (hp : L.Pending B As s.formula)
    (hj : Noted L j s.journal) :
    (s.enter As.length).Sound L T ∧ Noted L j (s.enter As.length).journal := by
  have hnoted (answer : Bool) :=
    (hj.note (.unitPropagate As.length) (by simp)).note (.isSatisfied answer) (by simp)
  have hfailed (answer : Bool) := (hnoted false).note (.isUnsatisfiable answer) (by simp)
  unfold enter
  dsimp only [note]
  rcases L.propagate hp with ⟨new, hset, -, hnew⟩ | ⟨hfail, c, hc, hcl⟩
  · have hBA : Forces cs B (new ++ B) := ⟨new, rfl, hnew⟩
    have hTA : T ⊆ new ++ B := fun l hl => hBA.subset (hd.subset hl)
    cases hs : isSatisfied (unitPropagate s.formula As.length) with
    | true =>
      rw [if_pos rfl]
      exact ⟨.accept rfl hd.length_frames_le ⟨_, _, hset, hd.rooted_cons hBA, hTA, L.satisfies hset hs, .inl hs⟩,
        hnoted true⟩
    | false =>
      rw [if_neg (by simp), L.not_unsatisfiable hset, if_neg (by simp)]
      cases hl : (DecisionSource.suggest s.heuristic (unitPropagate s.formula As.length)).1 with
      | none =>
        obtain ⟨hstuck, hsat⟩ := L.leaf hset hs fun c hc => s.heuristic.eq_nil_of_suggest hl hc
        exact ⟨.accept rfl hd.length_frames_le ⟨_, _, hset, hd.rooted_cons hBA, hTA, hsat, .inr hstuck⟩,
          fun _ => .inr hstuck⟩
      | some l =>
        obtain ⟨c, hc, hlc⟩ := s.heuristic.mem_of_suggest hl
        have hopen := L.open_of_live hset hc hlc
        exact ⟨.enter rfl (.decided hd hBA (L.consistent hset) hopen) (L.decide hset hopen),
          ((hfailed false).note _ (by simp)).note _ (by simp)⟩
  · rw [L.not_satisfied hfail, L.unsatisfiable hfail, if_neg (by simp), if_pos rfl]
    have hnil : L.Failed ([] ++ As) (unitPropagate s.formula As.length) := hfail
    exact ⟨.reject rfl hd hnil hd.rooted (.of_closure hc hcl), hfailed true⟩

/-- An answer is passed on, or the negation of a failed literal is tried. -/
theorem resume_sound {answer : Bool} {frame : Frame (BoundedLiteral n)}
    (h : s.Sound L T) (hstep : s.step = .leave answer) (hframes : s.frames = frame :: frames)
    (hj : Noted L j s.journal) :
    (s.resume answer frame frames).Sound L T ∧
      Noted L j (s.resume answer frame frames).journal := by
  unfold resume
  cases h with
  | enter step => simp [hstep] at step
  | accept step hle haccepts =>
    obtain rfl : answer = true := Step.leave.inj (hstep.symm.trans step)
    rw [if_pos (by simp)]
    rw [hframes] at hle
    exact ⟨.accept rfl (Nat.le_of_succ_le hle) haccepts, hj⟩
  | reject step hd hfail hrooted href =>
    obtain rfl : answer = false := Step.leave.inj (hstep.symm.trans step)
    rw [hframes] at hd
    cases hd with
    | decided hd hBA hcons hopen =>
      rw [if_neg (by simp)]
      have hset := L.undo_failed hfail
      exact ⟨.enter rfl (.negated hd hBA (L.consistent hset) hopen href) (L.decide hset (Trail.open_neg.mpr hopen)),
        (hj.note _ (by simp)).note _ (by simp)⟩
    | negated hd hBA _ _ hneg =>
      rw [if_pos (by simp)]
      rw [List.append_cons] at hfail hrooted
      exact ⟨.reject rfl hd hfail hrooted ((hneg.of_split href).of_forces hBA), hj⟩

theorem advance_sound (h : s.Sound L T) (hj : Noted L j s.journal) (ht : s.advance = some t) :
    t.Sound L T ∧ Noted L j t.journal := by
  unfold advance at ht
  split at ht
  · rename_i level hstep
    obtain rfl := Option.some.inj ht
    cases h with
    | enter step hd hp =>
      obtain rfl : level = _ := Step.enter.inj (hstep.symm.trans step)
      exact enter_sound hd hp hj
    | accept step | reject step => simp [hstep] at step
  · cases ht
  · rename_i answer frame frames hstep hframes
    obtain rfl := Option.some.inj ht
    exact resume_sound h hstep hframes hj

theorem Sound.length_frames_le (h : s.Sound L T) : s.frames.length ≤ n := by
  cases h with
  | enter _ hd _ | reject _ hd _ _ _ => exact hd.length_frames_le
  | accept _ hle _ => exact hle

/-- A search that may have `n` decisions pending comes to its end. -/
theorem run_sound {depth : Nat} (hdepth : n ≤ depth) (h : s.Sound L T)
    (hj : Noted L j s.journal) : ∃ t, s.run depth = some t ∧ t.advance = none ∧ t.Sound L T ∧
      Noted L j t.journal := by
  fun_induction run depth s with
  | case1 s hs => exact ⟨s, rfl, hs, h, hj⟩
  | case2 s t ht _ ih =>
    obtain ⟨ht, hj⟩ := advance_sound h hj ht
    exact ih ht hj
  | case3 s t ht hlt =>
    exact absurd (Nat.le_trans (advance_sound h hj ht).1.length_frames_le hdepth) hlt

end Search

/-- What a search that started with the literals of `T` ends with. -/
structure Laws.Verdict (L : Laws σ cs) (T : Trail n) (j : Journal (Call (BoundedLiteral n)))
    (t : Finished σ Heuristic (BoundedLiteral n)) : Prop where
  accepted : t.answer = true → L.Accepts T t.formula
  rejected : t.answer = false → ∃ As, L.Failed As t.formula ∧ Rooted cs T As ∧ Refuted cs T
  noted : Call.suggest none ∈ t.calls → Call.suggest none ∈ j.entries ∨ L.Stuck

/-- The answer of a search is whether the clauses have a model with the literals it started with. -/
theorem Laws.Verdict.answer_iff {L : Laws σ cs} {j : Journal (Call (BoundedLiteral n))}
    {t : Finished σ Heuristic (BoundedLiteral n)} (H : L.Verdict T j t) :
    t.answer = true ↔ ∃ v, Models cs v ∧ ∀ l ∈ T, l.Holds v := by
  constructor
  · intro h
    obtain ⟨A, As, hset, -, hTA, hsat, -⟩ := H.accepted h
    have hholds {l} (hl : l ∈ A) : l.Holds A.valuation := (L.consistent hset).holds_valuation hl
    refine ⟨A.valuation, fun c hc => ?_, fun l hl => hholds (hTA hl)⟩
    obtain ⟨l, hl, hlA⟩ := hsat c hc
    exact ⟨l, hl, hholds hlA⟩
  · rintro ⟨v, hv, hT⟩
    by_contra h
    obtain ⟨_, _, _, hrefuted⟩ := H.rejected (Bool.eq_false_iff.mpr h)
    exact hrefuted v hv hT

/-- The search ends, and its answer is right. -/
theorem Laws.search {f : σ} (L : Laws σ cs) (hf : L.Pending T [] f) (h : Heuristic)
    (j : Journal (Call (BoundedLiteral n))) {depth : Nat} (hdepth : n ≤ depth) :
    ∃ t, search? depth f h j = some t ∧ L.Verdict T j t := by
  have hstart : (Search.start f h j).Sound L T := .enter (by rfl) .root hf
  obtain ⟨s, hrun, hend, hs, hj⟩ := Search.run_sound hdepth hstart (j := j) Or.inl
  have hanswer (answer : Bool) (hstep : s.step = .leave answer) (hframes : s.frames = []) :
      search? depth f h j = some ⟨answer, s.formula, s.heuristic, s.journal.entries⟩ := by
    rw [search?, hrun, Option.bind_some, Search.answer?, hstep, hframes, Option.map_some]
  have hframes (answer : Bool) (hstep : s.step = .leave answer) : s.frames = [] := by
    cases hfs : s.frames with
    | nil => rfl
    | cons frame frames => simp [Search.advance, hstep, hfs] at hend
  cases hs with
  | enter step => simp [Search.advance, step] at hend
  | accept step _ haccepts =>
    exact ⟨_, hanswer true step (hframes true step), fun _ => haccepts, nofun, hj⟩
  | reject step hd hfail hrooted href =>
    have hnil := hframes false step
    refine ⟨_, hanswer false step hnil, nofun, fun _ => ⟨_, hfail, hrooted, ?_⟩, hj⟩
    rw [hnil] at hd
    cases hd with
    | root => exact href

end Dpll
