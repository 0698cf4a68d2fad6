import Dpll.Proofs.Search.Recursion
import Dpll.Proofs.Solver

/-! How much work a search does. The pending decisions stand at the levels from zero upwards, one a
level, and what has been asked of the heuristic together with what may still be asked below the current
node and below the negations that are pending never grows (`Search.Bounded`). So if at most `u`
decisions are pending at once, the heuristic is asked as often as a binary tree of depth `u` has inner
nodes. Over a formula that keeps the laws of a run of decisions `u` is the number of variables that were
open at the start, since every pending decision has fixed one of them (`Cnf.search_bounded`). -/

namespace Dpll

open Backtrackable

namespace Call

variable {ℓ : Type u}

/-- Whether the call asks the heuristic for a literal. -/
def isSuggest : Call ℓ → Bool
  | suggest _ => true
  | _ => false

/-- The level that the call is made at, if it has one. -/
def level? : Call ℓ → Option Level
  | unitPropagate level => some level
  | assign _ level => some level
  | backtrack level => some level
  | _ => none

end Call

namespace Search

variable {ℓ : Type} {u : Nat}

/-- How often the heuristic may still be asked for the pending decisions, if at most `u` may be
pending: those whose negation has not been tried have another node above them. -/
def framesAsks (u : Nat) : List (Frame ℓ) → Nat
  | [] => 0
  | frame :: frames =>
    (if frame.phase = .negated then 0 else 2 ^ (u - (frames.length + 1)) - 1) + framesAsks u frames

/-- How often the heuristic may still be asked. -/
def asksAhead (u : Nat) (frames : List (Frame ℓ)) : Step → Nat
  | .enter _ => (2 ^ (u - frames.length) - 1) + framesAsks u frames
  | .leave _ => framesAsks u frames

variable {σ : Type} [Backtrackable σ ℓ] [BEq ℓ] [Hashable ℓ] [Neg ℓ]

/-- What the parties have been asked so far stays within bounds if at most `u` decisions may be
pending. The heuristic had made `d` decisions before. -/
structure Bounded (u d : Nat) (p : Parties σ Heuristic ℓ) (frames : List (Frame ℓ)) (step : Step) :
    Prop where
  asked : p.calls.countP Call.isSuggest + asksAhead u frames step ≤ 2 ^ u - 1
  decisions : p.heuristic.decisions = d + p.calls.countP Call.isSuggest
  levels : frames.map (·.level) = (List.range frames.length).reverse
  level : ∀ level, step = .enter level → level = frames.length
  calls : ∀ call ∈ p.calls, ∀ k, call.level? = some k → k ≤ u

end Search

namespace Parties

variable {σ ℓ : Type} {p q : Parties σ Heuristic ℓ} {level : Level} {l : ℓ} {satisfiable : Bool}
  {new : List (Call ℓ)} {outcome : NodeOutcome ℓ}

/-- The calls of a node up to its outcome. -/
inductive NodeCalls (level : Level) : List (Call ℓ) → NodeOutcome ℓ → Prop
  | satisfied : NodeCalls level [.unitPropagate level, .isSatisfied true] (.answer true)
  | unsatisfiable :
    NodeCalls level [.unitPropagate level, .isSatisfied false, .isUnsatisfiable true] (.answer false)
  | undecided : NodeCalls level
      [.unitPropagate level, .isSatisfied false, .isUnsatisfiable false, .suggest none] (.answer true)
  | decided (l : ℓ) : NodeCalls level
      [.unitPropagate level, .isSatisfied false, .isUnsatisfiable false, .suggest (some l)] (.decide l)

namespace NodeCalls

theorem level_eq (h : NodeCalls level new outcome) :
    ∀ call ∈ new, ∀ k, call.level? = some k → k = level := by
  cases h <;> simp [Call.level?]

/-- A node that has an answer has not asked the heuristic, unless in vain. -/
theorem countP_answer (h : NodeCalls level new (.answer satisfiable))
    (hnone : Call.suggest none ∉ new) : new.countP Call.isSuggest = 0 := by
  cases h with
  | satisfied | unsatisfiable => rfl
  | undecided => simp at hnone

theorem countP_decide (h : NodeCalls level new (.decide l)) : new.countP Call.isSuggest = 1 := by
  cases h
  rfl

end NodeCalls

variable [Backtrackable σ ℓ] [BEq ℓ] [Hashable ℓ]

/-- A node makes its calls, and the heuristic counts how often it is asked. -/
theorem exists_nodeCalls (h : p.visit level = (outcome, q)) : ∃ new, NodeCalls level new outcome ∧
    q.calls = p.calls ++ new ∧
    q.heuristic.decisions = p.heuristic.decisions + new.countP Call.isSuggest := by
  unfold visit at h
  dsimp only [Parties.unitPropagate, Parties.isSatisfied, Parties.isUnsatisfiable,
    Parties.suggest] at h
  split at h
  · rename_i hsat
    cases h
    exact ⟨_, .satisfied, by simp [hsat], rfl⟩
  split at h
  · rename_i hsat hunsat
    cases h
    exact ⟨_, .unsatisfiable, by simp [hsat, hunsat], rfl⟩
  · rename_i hsat hunsat
    cases hs : (DecisionSource.suggest p.heuristic (Backtrackable.unitPropagate p.formula level)).1 with
    | none =>
      rw [hs] at h
      cases h
      exact ⟨_, .undecided, by simp [hsat, hunsat], rfl⟩
    | some l =>
      rw [hs] at h
      cases h
      exact ⟨_, .decided l, by simp [hsat, hunsat], rfl⟩

end Parties

namespace Search.Bounded

variable {σ ℓ : Type} {u d : Nat} {p q : Parties σ Heuristic ℓ} {frame : Frame ℓ}
  {frames : List (Frame ℓ)} {step : Step} {level : Level} {l : ℓ} {a b : Bool}

theorem map_level_cons : (frame :: frames).map (·.level) = (List.range (frame :: frames).length).reverse ↔
    frame.level = frames.length ∧ frames.map (·.level) = (List.range frames.length).reverse := by
  simp [List.range_succ]

theorem leave (H : Bounded u d p (frame :: frames) (.leave a)) :
    Bounded u d p frames (.leave b) := by
  refine ⟨?_, H.decisions, ?_, nofun, H.calls⟩
  · have hasked := H.asked
    simp only [asksAhead, framesAsks] at hasked ⊢
    lia
  · exact (map_level_cons.mp H.levels).2

variable [Backtrackable σ ℓ]

/-- The node that was pending with the negation is entered. -/
theorem negate [Neg ℓ] (H : Bounded u d p (⟨level, l, .decided⟩ :: frames) (.leave a))
    (hlen : frames.length < u) :
    Bounded u d ((p.backtrack level).assign (-l) (level + 1))
      (⟨level, l, .negated⟩ :: frames) (.enter (level + 1)) := by
  obtain ⟨rfl, hlevels⟩ := map_level_cons.mp H.levels
  have hcount : ((p.backtrack frames.length).assign (-l) (frames.length + 1)).calls.countP
      Call.isSuggest = p.calls.countP Call.isSuggest := by
    simp [Parties.assign, Parties.backtrack, List.countP_append, Call.isSuggest]
  refine ⟨?_, ?_, ?_, ?_, ?_⟩
  · have hasked := H.asked
    rw [hcount]
    simp only [asksAhead, framesAsks, List.length_cons, reduceCtorEq, if_false] at hasked ⊢
    lia
  · rw [hcount]
    exact H.decisions
  · exact map_level_cons.mpr ⟨rfl, hlevels⟩
  · simp
  · simp only [Parties.assign, Parties.backtrack, List.append_assoc]
    refine List.forall_mem_append.mpr ⟨H.calls, ?_⟩
    simp [Call.level?]
    lia

variable [BEq ℓ] [Hashable ℓ]

theorem answer (H : Bounded u d p frames (.enter level)) (h : p.visit level = (.answer a, q))
    (hnone : Call.suggest none ∉ q.calls) (hlen : frames.length ≤ u) :
    Bounded u d q frames (.leave a) := by
  obtain ⟨new, hnew, hcalls, hdecisions⟩ := Parties.exists_nodeCalls h
  have hzero : new.countP Call.isSuggest = 0 :=
    hnew.countP_answer fun hmem => hnone (hcalls ▸ List.mem_append_right _ hmem)
  have hcount : q.calls.countP Call.isSuggest = p.calls.countP Call.isSuggest := by
    rw [hcalls, List.countP_append, hzero, Nat.add_zero]
  refine ⟨?_, ?_, H.levels, nofun, ?_⟩
  · have hasked := H.asked
    simp only [asksAhead] at hasked ⊢
    lia
  · rw [hdecisions, hzero, hcount]
    exact H.decisions
  · rw [hcalls]
    refine List.forall_mem_append.mpr ⟨H.calls, fun call hcall k hk => ?_⟩
    rw [hnew.level_eq call hcall k hk, H.level level rfl]
    exact hlen

/-- A decision is asked for once, and leaves two nodes with one decision less below them. -/
theorem decide (H : Bounded u d p frames (.enter level)) (h : p.visit level = (.decide l, q))
    (hlen : frames.length < u) : Bounded u d (q.assign l (level + 1))
      (⟨level, l, .decided⟩ :: frames) (.enter (level + 1)) := by
  obtain ⟨new, hnew, hcalls, hdecisions⟩ := Parties.exists_nodeCalls h
  obtain rfl := H.level level rfl
  have hone : new.countP Call.isSuggest = 1 := hnew.countP_decide
  have hcount : (q.assign l (frames.length + 1)).calls.countP Call.isSuggest =
      p.calls.countP Call.isSuggest + 1 := by
    simp [Parties.assign, hcalls, List.countP_append, hone, Call.isSuggest]
  refine ⟨?_, ?_, ?_, ?_, ?_⟩
  · have hasked := H.asked
    obtain ⟨k, hk⟩ := Nat.exists_eq_add_of_lt hlen
    have hsub : u - frames.length = k + 1 := by lia
    have hsub' : u - (frames.length + 1) = k := by lia
    have hpos : 0 < 2 ^ k := Nat.two_pow_pos k
    -- `2 ^ (k + 1) - 1` asks: the one just made, and `2 ^ k - 1` below the literal and below its negation
    rw [hcount]
    simp only [asksAhead, framesAsks, List.length_cons, hsub, hsub', reduceCtorEq, if_false,
      Nat.pow_succ] at hasked ⊢
    lia
  · rw [hcount]
    change q.heuristic.decisions = _
    rw [hdecisions, hone, H.decisions, Nat.add_assoc]
  · exact map_level_cons.mpr ⟨rfl, H.levels⟩
  · simp
  · have hassigned : (q.assign l (frames.length + 1)).calls =
        p.calls ++ (new ++ [.assign l (frames.length + 1)]) := by
      rw [Parties.assign, hcalls, List.append_assoc]
    rw [hassigned, List.forall_mem_append, List.forall_mem_append, List.forall_mem_singleton]
    refine ⟨H.calls, fun call hcall k hk => ?_, fun k hk => ?_⟩
    · rw [hnew.level_eq call hcall k hk]
      exact Nat.le_of_lt hlen
    · obtain rfl := Option.some.inj hk
      exact hlen

/-- One step keeps the bounds, if no node is left without a literal to decide. -/
theorem advance [Neg ℓ] {t : Search σ Heuristic ℓ} (H : Bounded u d p frames step)
    (ht : (p.search .blank frames step).advance = some t) (hlen : t.frames.length ≤ u)
    (hnone : Call.suggest none ∉ t.journal.entries) :
    ∃ q frames step, t = Parties.search q .blank frames step ∧ Bounded u d q frames step := by
  cases step with
  | enter level =>
    cases hvisit : p.visit level with
    | mk outcome q =>
      cases outcome with
      | answer satisfiable =>
        rw [Parties.advance_answer hvisit] at ht
        obtain rfl := Option.some.inj ht
        have hcalls : (q.calls.foldl Journal.note .blank).entries = q.calls :=
          Parties.entries_foldl_note q.calls
        exact ⟨q, frames, _, rfl, H.answer hvisit (hcalls ▸ hnone) hlen⟩
      | decide l =>
        rw [Parties.advance_decide hvisit] at ht
        obtain rfl := Option.some.inj ht
        exact ⟨_, _, _, rfl, H.decide hvisit hlen⟩
  | leave answer =>
    cases frames with
    | nil => cases ht
    | cons frame frames =>
      obtain ⟨level, l, phase⟩ := frame
      cases phase with
      | negated =>
        rw [Parties.advance_leave_negated] at ht
        obtain rfl := Option.some.inj ht
        exact ⟨p, frames, _, rfl, H.leave⟩
      | decided =>
        cases answer with
        | true =>
          rw [Parties.advance_leave_true] at ht
          obtain rfl := Option.some.inj ht
          exact ⟨p, frames, _, rfl, H.leave⟩
        | false =>
          rw [Parties.advance_leave_decided] at ht
          obtain rfl := Option.some.inj ht
          exact ⟨_, _, _, rfl, H.negate hlen⟩

end Search.Bounded

namespace Search

variable {σ ℓ : Type} [Backtrackable σ ℓ] [BEq ℓ] [Hashable ℓ] [Neg ℓ] {f : σ} {h : Heuristic}
  {u : Nat} {t : Search σ Heuristic ℓ}

/-- A search that never has more than `u` decisions pending, and always a literal to decide, keeps the
bounds. -/
theorem Bounded.of_reaches (ht : (start f h .blank).Reaches t)
    (H : ∀ s, (start f h .blank).Reaches s → s.frames.length ≤ u ∧
      Call.suggest none ∉ s.journal.entries) :
    ∃ p frames step, t = Parties.search p .blank frames step ∧ Bounded u h.decisions p frames step := by
  induction ht with
  | refl =>
    refine ⟨⟨f, h, []⟩, [], .enter 0, rfl, ⟨?_, rfl, rfl, ?_, nofun⟩⟩
    · simp [asksAhead, framesAsks]
    · simp
  | @tail s t hs hst ih =>
    obtain ⟨p, frames, step, rfl, hp⟩ := ih
    obtain ⟨hlen, hnone⟩ := H t (hs.tail hst)
    exact hp.advance hst hlen hnone

end Search

/-! ### The search of a formula -/

section

variable {n : Nat} {cs : List (List (BoundedLiteral n))} {T : Trail n}
  {σ : Type} [Backtrackable σ (BoundedLiteral n)] {L : Laws σ cs}
  {s t : Search σ Heuristic (BoundedLiteral n)} {j : Journal (Call (BoundedLiteral n))}

namespace Search

theorem Sound.of_reaches (hs : s.Sound L T) (hj : Noted L j s.journal) (h : s.Reaches t) :
    t.Sound L T ∧ Noted L j t.journal := by
  induction h with
  | refl => exact ⟨hs, hj⟩
  | tail _ ht ih => exact advance_sound ih.1 ih.2 ht

/-- A step puts a decision on the stack only if it enters a node. -/
theorem length_frames_advance (h : s.advance = some t) :
    t.frames.length ≤ s.frames.length ∨ ∃ level, t.step = .enter level := by
  unfold Search.advance at h
  split at h
  · obtain rfl := Option.some.inj h
    rcases s.enter_cases _ with ⟨_, _, hframes⟩ | ⟨_, hstep, _⟩
    · exact .inl (Nat.le_of_eq (congrArg _ hframes))
    · exact .inr ⟨_, hstep⟩
  · cases h
  · rename_i hstep hframes
    obtain rfl := Option.some.inj h
    rcases s.resume_cases _ _ _ with ⟨_, hframes'⟩ | ⟨_, hstep, _⟩
    · rw [hframes, hframes']
      exact .inl (Nat.le_succ _)
    · exact .inr ⟨_, hstep⟩

/-- A decision that is pending has fixed a variable that was open at the start. -/
theorem Sound.length_frames_le_of_reaches (hs : s.Sound L T) (hj : Noted L j s.journal)
    (hT : T.Consistent) (hframes : s.frames = []) (h : s.Reaches t) :
    t.frames.length ≤ T.numOpen := by
  induction h with
  | refl => simp [hframes]
  | @tail t t' ht hstep ih =>
    rcases length_frames_advance hstep with hle | ⟨level, henter⟩
    · exact Nat.le_trans hle ih
    · obtain ⟨hsound, -⟩ := hs.of_reaches hj (ht.tail hstep)
      cases hsound with
      | enter _ hd =>
        have hle := Nat.le_trans hd.add_length_le (hd.consistent hT).length_le
        have hopen := hT.numOpen_add_length
        lia
      | accept step | reject step => simp [henter] at step

end Search

end

namespace Tracked

variable {n : Nat} {cs : List (List (BoundedLiteral n))} {B : Trail n} {As : List (Trail n)}
  {f : Tracked n cs.length}

theorem assignment_of_pending {r : Representation} (h : (freshLaws r cs).Pending B As f) :
    assignment f = B.reverse := by
  cases r with
  | adjacencyList =>
    cases f with
    | adjacencyList f => exact congrArg List.reverse (Adjacency.Stands.trail h)
    | watchedLiterals f => exact h.elim
  | watchedLiterals =>
    cases f with
    | adjacencyList f => exact h.elim
    | watchedLiterals f => exact congrArg List.reverse (Watched.Stands.trail h.1)

end Tracked

/-- A search under assumptions comes to its end. With `u` variables open at the start, it asks the
heuristic for a literal `2 ^ u - 1` times at most, never has more than `u` decisions pending, one at
each level from zero upwards, and makes no call above level `u`. -/
theorem Cnf.search_bounded (f : Cnf) (hf : f.InRange) (r : Representation) (h : Heuristic) :
    ∃ cs, f.bounded? = some cs ∧ ∀ as : List (BoundedLiteral f.numVars), Trail.Consistent as →
      let g := as.foldl (fun g l => assign g l 0) (Tracked.ofClauses r cs)
      let u := Trail.numOpen (assignment g)
      let start := Search.start g h .blank
      (∃ t answer, start.Ends t ∧ t.answer? = some answer ∧
        g.search? h .blank = some ⟨answer, t.formula, t.heuristic, t.journal.entries⟩) ∧
      ∀ t, start.Reaches t →
        t.journal.entries.countP Call.isSuggest ≤ 2 ^ u - 1 ∧
        t.heuristic.decisions = h.decisions + t.journal.entries.countP Call.isSuggest ∧
        t.frames.length ≤ u ∧
        t.frames.reverse.map (·.level) = List.range t.frames.length ∧
        ∀ call ∈ t.journal.entries, ∀ k, call.level? = some k → k ≤ u := by
  obtain ⟨cs, hcs⟩ := exists_bounded? hf
  refine ⟨cs, hcs, fun as has => ?_⟩
  intro g u start
  have hpending : (Tracked.freshLaws r cs).Pending as.reverse [] g := Tracked.pending_assumed r has
  have hT : Trail.Consistent as.reverse := Trail.consistent_reverse.mpr has
  have hu : Trail.numOpen as.reverse = u := by
    rw [← Trail.numOpen_reverse, ← Tracked.assignment_of_pending hpending]
  have hstart : start.Sound (Tracked.freshLaws r cs) as.reverse := .enter (by rfl) .root hpending
  have hnoted : Search.Noted (Tracked.freshLaws r cs) .blank start.journal := .inl
  constructor
  · obtain ⟨result, hresult, -⟩ := Tracked.search hpending h .blank
    obtain ⟨t, hrun, hanswer⟩ := Option.bind_eq_some_iff.mp hresult
    obtain ⟨answer, hsome, rfl⟩ := Option.map_eq_some_iff.mp hanswer
    exact ⟨t, answer, Search.ends_of_run hrun, hsome, hresult⟩
  · intro t ht
    have H (s) (hs : start.Reaches s) : s.frames.length ≤ u ∧
        Call.suggest none ∉ s.journal.entries := by
      refine ⟨hu ▸ hstart.length_frames_le_of_reaches hnoted hT rfl hs, fun hmem => ?_⟩
      rcases (hstart.of_reaches hnoted hs).2 hmem with hblank | hstuck
      · simp [Journal.entries, Journal.blank] at hblank
      · exact Tracked.not_stuck_freshLaws r hstuck
    obtain ⟨p, frames, step, rfl, hp⟩ := Search.Bounded.of_reaches ht H
    have hcalls : (p.search .blank frames step).journal.entries = p.calls :=
      Parties.entries_foldl_note p.calls
    rw [hcalls]
    refine ⟨Nat.le_trans (Nat.le_add_right ..) hp.asked, hp.decisions, (H _ ht).1, ?_, hp.calls⟩
    rw [List.map_reverse]
    exact (congrArg List.reverse hp.levels).trans (List.reverse_reverse _)

/-- With the second of two variables assumed to be false, one decision is enough. -/
theorem Cnf.search_bounded_two_clauses : (Cnf.ofNumbers [[1, 2], [-1, 2]]).InRange ∧
    Trail.Consistent (n := (Cnf.ofNumbers [[1, 2], [-1, 2]]).numVars) [⟨⟨3⟩, by decide⟩] ∧
    ∃ cs, (Cnf.ofNumbers [[1, 2], [-1, 2]]).bounded? = some cs ∧
      ∃ t : Search _ Heuristic (BoundedLiteral (Cnf.ofNumbers [[1, 2], [-1, 2]]).numVars),
        (Search.start (assign (Tracked.ofClauses .watchedLiterals cs) ⟨⟨3⟩, by decide⟩ 0)
          (.ofName .jeroslowWang 0) .blank).Ends t ∧
        t.heuristic.decisions ≤ 1 ∧ t.journal.entries.countP Call.isSuggest ≤ 1 := by
  have hf : (Cnf.ofNumbers [[1, 2], [-1, 2]]).InRange := by
    unfold InRange
    decide
  refine ⟨hf, List.nodup_singleton _, ?_⟩
  obtain ⟨cs, hcs, hbounded⟩ := search_bounded _ hf .watchedLiterals (.ofName .jeroslowWang 0)
  refine ⟨cs, hcs, ?_⟩
  obtain ⟨⟨t, _, hends, -⟩, hreaches⟩ := hbounded [⟨⟨3⟩, by decide⟩] (List.nodup_singleton _)
  obtain ⟨hasked, hdecisions, -⟩ := hreaches t hends.1
  have hopen : Trail.numOpen (assignment ([⟨⟨3⟩, by decide⟩].foldl (fun g l => assign g l 0)
      (Tracked.ofClauses .watchedLiterals cs))) = 1 := by
    obtain rfl := Option.some.inj (hcs.symm.trans rfl)
    decide +kernel
  rw [hopen] at hasked
  rw [Heuristic.ofName, Nat.zero_add] at hdecisions
  exact ⟨t, hends, hdecisions ▸ hasked, hasked⟩

end Dpll
