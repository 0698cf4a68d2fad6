import Dpll.Proofs.Plain.Adjacency
import Dpll.Proofs.Plain.Watched
import Dpll.Proofs.Search.Recursion

/-! Sessions over plain tables. What is asked of a formula is a list of operations, in any order and on
any levels; with literals of its variables no look-up fails in either representation, and the tables
are those of the formula with bounds after the same moves (`Tracked.exists_run?`). A search is such a
session (`Search.exists_calls_of_reaches`). -/

namespace Dpll.Plain

/-- What is asked of a formula under search. -/
inductive Operation where
  | assign (l : Literal) (level : Level)
  | unitPropagate (level : Level)
  | backtrack (level : Level)
  /-- The live clauses are listed. -/
  | liveClauses
deriving DecidableEq

/-- The literal of an operation is one of the first `n` variables. -/
def Operation.InRange (n : Nat) : Operation → Prop
  | assign l _ => l.var.toNat < n
  | _ => True

instance {n : Nat} : DecidablePred (Operation.InRange n)
  | .assign l _ => inferInstanceAs (Decidable (l.var.toNat < n))
  | .unitPropagate _ | .backtrack _ | .liveClauses => inferInstanceAs (Decidable True)

/-- A formula in one of the two representations. -/
inductive Tracked where
  | adjacencyList (formula : Adjacency)
  | watchedLiterals (formula : Watched)

namespace Tracked

/-- The formula of the given clauses over `numVars` variables. -/
def ofClauses? (r : Representation) (numVars : Nat) (cs : List Clause) : Option Tracked :=
  match r with
  | .adjacencyList => (Adjacency.ofClauses? numVars cs).map adjacencyList
  | .watchedLiterals => (Watched.ofClauses? numVars cs).map watchedLiterals

/-- The clauses not known to be satisfied, each with its open literals. -/
def liveClauses? : Tracked → Option (List (List Literal))
  | adjacencyList f => some f.liveClauses
  | watchedLiterals f => f.liveClauses?

/-- The literals made true. -/
def assignment : Tracked → List Literal
  | adjacencyList f => f.assignment
  | watchedLiterals f => f.assignment

/-- The formula after an operation, if none of its look-ups fails. -/
def perform? (f : Tracked) : Operation → Option Tracked
  | .assign l k =>
    match f with
    | adjacencyList f => (f.assign? l k).map adjacencyList
    | watchedLiterals f => (f.assign? l k).map watchedLiterals
  | .unitPropagate k =>
    match f with
    | adjacencyList f => (f.unitPropagate? k).map adjacencyList
    | watchedLiterals f => (f.unitPropagate? k).map watchedLiterals
  | .backtrack k =>
    match f with
    | adjacencyList f => (f.backtrack? k).map adjacencyList
    | watchedLiterals f => (f.backtrack? k).map watchedLiterals
  | .liveClauses => f.liveClauses?.map fun _ => f

/-- The formula of the given clauses after a session. -/
def run? (r : Representation) (numVars : Nat) (cs : List Clause) (ops : List Operation) :
    Option Tracked := do
  let f ← ofClauses? r numVars cs
  ops.foldlM perform? f

end Tracked

end Dpll.Plain

namespace Dpll

open Backtrackable

variable {n m : Nat} {cs : List (List (BoundedLiteral n))} {r : Representation}

/-- The move that an operation makes; listing the live clauses makes none. -/
def Plain.Operation.move? (n : Nat) : Plain.Operation → Option (Move n)
  | assign l k => (BoundedLiteral.ofLiteral? n l).map (.assign · k)
  | unitPropagate k => some (.propagate k)
  | backtrack k => some (.undo k)
  | liveClauses => none

theorem Plain.Operation.move?_assign (l : BoundedLiteral n) (k : Level) :
    Plain.Operation.move? n (.assign l.toLiteral k) = some (.assign l k) := by
  have hl : BoundedLiteral.ofLiteral? n l.toLiteral = some l := dif_pos l.var_lt
  exact congrArg (Option.map _) hl

/-- The moves that operations make, newest first. -/
def Moves.ofOperations (n : Nat) (ops : List Plain.Operation) : Moves n :=
  (ops.filterMap (·.move? n)).reverse

theorem Moves.ofOperations_append (ops ops' : List Plain.Operation) :
    ofOperations n (ops ++ ops') = ofOperations n ops' ++ ofOperations n ops := by
  rw [ofOperations, List.filterMap_append, List.reverse_append, ofOperations, ofOperations]

theorem Moves.ofOperations_singleton (op : Plain.Operation) :
    ofOperations n [op] = (op.move? n).toList := by
  cases h : op.move? n <;> simp [ofOperations, h]

namespace Tracked

/-- The plain formula has the tables of a formula. -/
inductive Shows : Tracked n m → Plain.Tracked → Prop
  | adjacencyList {f : Adjacency n m} {as : Array (Array Literal)} (table : f.assigned.IsTable as) :
    Shows (.adjacencyList f) (.adjacencyList (f.plain as))
  | watchedLiterals {f : Watched n m} : Shows (.watchedLiterals f) (.watchedLiterals f.plain)

variable {f : Tracked n cs.length} {g : Plain.Tracked} {ms : Moves n}

theorem exists_ofClauses? (r : Representation) (cs : List (List (BoundedLiteral n))) :
    ∃ g, Plain.Tracked.ofClauses? r n (cs.map (List.map (·.toLiteral))) = some g ∧
      Shows (ofClauses r cs) g := by
  cases r with
  | adjacencyList =>
    refine ⟨_, ?_, .adjacencyList LevelTrail.isTable_empty⟩
    rw [Plain.Tracked.ofClauses?, Adjacency.ofClauses?_plain]
    rfl
  | watchedLiterals =>
    refine ⟨_, ?_, .watchedLiterals⟩
    rw [Plain.Tracked.ofClauses?, Watched.ofClauses?_plain]
    rfl

/-- The invariants of either representation hold after every session. -/
inductive Kept (cs : List (List (BoundedLiteral n))) : Tracked n cs.length → Prop
  | adjacencyList {f : Adjacency n cs.length} (restorable : Adjacency.Restorable cs f) :
    Kept cs (.adjacencyList f)
  | watchedLiterals {f : Watched n cs.length} (orderly : Watched.Orderly cs f) :
    Kept cs (.watchedLiterals f)

theorem Kept.after (r : Representation) (ms : Moves n) : Kept cs (ms.after (ofClauses r cs)) := by
  cases r with
  | adjacencyList =>
    rw [ofClauses, Moves.after_adjacencyList]
    exact .adjacencyList (.after ms)
  | watchedLiterals =>
    rw [ofClauses, Moves.after_watchedLiterals]
    exact .watchedLiterals (.after ms)

namespace Shows

theorem assign (h : Shows f g) (hf : Kept cs f) (l : BoundedLiteral n) (k : Level) :
    ∃ g', g.perform? (.assign l.toLiteral k) = some g' ∧ Shows (Backtrackable.assign f l k) g' := by
  cases h with
  | adjacencyList htable =>
    obtain ⟨as, hassign, htable'⟩ := Adjacency.assign?_plain (l := l) (k := k) htable
    exact ⟨_, congrArg (Option.map _) hassign, .adjacencyList htable'⟩
  | watchedLiterals =>
    cases hf with
    | watchedLiterals hf =>
      exact ⟨_, congrArg (Option.map _) (Watched.assign?_plain hf.placed hf.logged), .watchedLiterals⟩

theorem unitPropagate (h : Shows f g) (hf : Kept cs f) (k : Level) :
    ∃ g', g.perform? (.unitPropagate k) = some g' ∧ Shows (Backtrackable.unitPropagate f k) g' := by
  cases h with
  | adjacencyList htable =>
    cases hf with
    | adjacencyList hf =>
      obtain ⟨as, hpropagate, htable'⟩ := hf.unitPropagate?_plain (k := k) htable
      exact ⟨_, congrArg (Option.map _) hpropagate, .adjacencyList htable'⟩
  | watchedLiterals =>
    cases hf with
    | watchedLiterals hf =>
      exact ⟨_, congrArg (Option.map _) hf.unitPropagate?_plain, .watchedLiterals⟩

theorem backtrack (h : Shows f g) (hf : Kept cs f) (k : Level) :
    ∃ g', g.perform? (.backtrack k) = some g' ∧ Shows (Backtrackable.backtrack f k) g' := by
  cases h with
  | adjacencyList htable =>
    cases hf with
    | adjacencyList hf =>
      obtain ⟨as, hbacktrack, htable'⟩ :=
        Adjacency.backtrack?_plain (k := k) (fun i => ⟨_, hf.restored i⟩) hf.sorted htable
      exact ⟨_, congrArg (Option.map _) hbacktrack, .adjacencyList htable'⟩
  | watchedLiterals => exact ⟨_, congrArg (Option.map _) Watched.backtrack?_plain, .watchedLiterals⟩

theorem liveClauses? (h : Shows f g) :
    g.liveClauses? = some ((Backtrackable.liveClauses f).map (List.map (·.toLiteral))) := by
  cases h with
  | adjacencyList => exact congrArg some Adjacency.liveClauses_plain
  | watchedLiterals => exact Watched.liveClauses?_plain

theorem assignment (h : Shows f g) (hf : Kept cs f) :
    g.assignment = (Backtrackable.assignment f).map (·.toLiteral) := by
  cases h with
  | adjacencyList htable =>
    cases hf with
    | adjacencyList hf => exact htable.flatMap_toList hf.sorted
  | watchedLiterals => exact Watched.assignment_plain

/-- No look-up fails in an operation on a literal of the variables. -/
theorem perform? (h : Shows (ms.after (ofClauses r cs)) g) {op : Plain.Operation}
    (hop : op.InRange n) : ∃ g', g.perform? op = some g' ∧
      Shows (Moves.after (ofClauses r cs) (Moves.ofOperations n [op] ++ ms)) g' := by
  have hf : Kept cs (ms.after (ofClauses r cs)) := .after r ms
  rw [Moves.ofOperations_singleton]
  cases op with
  | assign l k =>
    have hmove : Plain.Operation.move? n (.assign l k) = some (.assign ⟨l, hop⟩ k) :=
      Plain.Operation.move?_assign ⟨l, hop⟩ k
    rw [hmove]
    exact h.assign hf ⟨l, hop⟩ k
  | unitPropagate k => exact h.unitPropagate hf k
  | backtrack k => exact h.backtrack hf k
  | liveClauses => exact ⟨g, congrArg (Option.map _) h.liveClauses?, h⟩

/-- No look-up fails in operations on literals of the variables. -/
theorem foldlM_perform? (h : Shows (ms.after (ofClauses r cs)) g) {ops : List Plain.Operation}
    (hops : ∀ op ∈ ops, op.InRange n) : ∃ g', ops.foldlM Plain.Tracked.perform? g = some g' ∧
      Shows (Moves.after (ofClauses r cs) (Moves.ofOperations n ops ++ ms)) g' := by
  induction ops generalizing g ms with
  | nil => exact ⟨g, rfl, h⟩
  | cons op ops ih =>
    obtain ⟨hop, hops⟩ := List.forall_mem_cons.mp hops
    obtain ⟨g₁, hg₁, h₁⟩ := h.perform? hop
    obtain ⟨g', hg', h'⟩ := ih h₁ hops
    refine ⟨g', ?_, ?_⟩
    · rw [List.foldlM_cons, hg₁]
      exact hg'
    · rwa [← List.append_assoc, ← Moves.ofOperations_append] at h'

end Shows

/-- No look-up fails in a session, which leaves behind the tables of the formula after its moves. -/
theorem exists_run? (r : Representation) (cs : List (List (BoundedLiteral n)))
    {ops : List Plain.Operation} (hops : ∀ op ∈ ops, op.InRange n) :
    ∃ g, Plain.Tracked.run? r n (cs.map (List.map (·.toLiteral))) ops = some g ∧
      Shows (Moves.after (ofClauses r cs) (Moves.ofOperations n ops)) g := by
  obtain ⟨g₀, hg₀, h₀⟩ := exists_ofClauses? r cs
  have hstart : Shows (Moves.after (ofClauses r cs) []) g₀ := h₀
  obtain ⟨g, hg, h⟩ := hstart.foldlM_perform? hops
  rw [List.append_nil] at h
  refine ⟨g, ?_, h⟩
  rw [Plain.Tracked.run?, hg₀]
  exact hg

/-- Beyond the variables there are no tables: the formula cannot be built, or the literal not
assigned. -/
example : (Plain.Tracked.run? .adjacencyList 1 [[⟨0⟩, ⟨2⟩]] []).isNone = true ∧
    (Plain.Tracked.run? .watchedLiterals 1 [[⟨0⟩, ⟨2⟩]] []).isNone = true ∧
    (Plain.Tracked.run? .watchedLiterals 1 [[⟨0⟩]] [.assign ⟨2⟩ 0]).isNone = true := by
  decide

end Tracked

/-! ### Searches -/

/-- What a call of a search asks of the formula, where that looks into its tables. To suggest a literal,
a heuristic has the live clauses listed. -/
def Call.operation? : Call (BoundedLiteral n) → Option Plain.Operation
  | unitPropagate k => some (.unitPropagate k)
  | suggest _ => some .liveClauses
  | assign l k => some (.assign l.toLiteral k)
  | backtrack k => some (.backtrack k)
  | isSatisfied _ | isUnsatisfiable _ => none

theorem Call.inRange_of_mem {calls : List (Call (BoundedLiteral n))} {op : Plain.Operation}
    (hop : op ∈ calls.filterMap operation?) : op.InRange n := by
  obtain ⟨c, -, hc⟩ := List.mem_filterMap.mp hop
  cases c with
  | assign l k =>
    obtain rfl := Option.some.inj hc
    exact l.var_lt
  | unitPropagate | suggest | backtrack =>
    obtain rfl := Option.some.inj hc
    exact trivial
  | isSatisfied | isUnsatisfiable => cases hc

theorem Moves.after_append {σ : Type} [Backtrackable σ (BoundedLiteral n)] (f : σ) (ms ms' : Moves n) :
    Moves.after f (ms ++ ms') = Moves.after (ms'.after f) ms := by
  induction ms with
  | nil => rfl
  | cons m ms ih =>
    rw [List.cons_append]
    cases m <;> rw [after, ih, after]

section

variable {σ : Type} {η : Type v} [Backtrackable σ (BoundedLiteral n)]
  [DecisionSource η σ (BoundedLiteral n)]

namespace Parties

/-- The calls make the formula what it is when they are made of `f`. -/
def Replays (f : σ) (p : Parties σ η (BoundedLiteral n)) : Prop :=
  p.formula = Moves.after f (Moves.ofOperations n (p.calls.filterMap Call.operation?))

namespace Replays

variable {f : σ} {p q : Parties σ η (BoundedLiteral n)} {l : BoundedLiteral n} {k : Level}

omit [DecisionSource η σ (BoundedLiteral n)] in
theorem call (h : p.Replays f) {c : Call (BoundedLiteral n)} (hcalls : q.calls = p.calls ++ [c])
    (hformula : q.formula = Moves.after p.formula (Moves.ofOperations n c.operation?.toList)) :
    q.Replays f := by
  have hone : [c].filterMap Call.operation? = c.operation?.toList := by
    cases hc : c.operation? <;> simp [hc]
  rw [Replays, hformula, h, hcalls, List.filterMap_append, hone, Moves.ofOperations_append,
    Moves.after_append]

omit [DecisionSource η σ (BoundedLiteral n)] in
theorem assign (h : p.Replays f) : (p.assign l k).Replays f := by
  refine h.call (c := .assign l k) rfl ?_
  rw [Call.operation?, Option.toList_some, Moves.ofOperations_singleton, Plain.Operation.move?_assign]
  rfl

omit [DecisionSource η σ (BoundedLiteral n)] in
theorem backtrack (h : p.Replays f) : (p.backtrack k).Replays f := h.call rfl rfl

/-- What a node does before it has an answer or a literal to decide. -/
theorem visit (h : p.Replays f) : (p.visit k).2.Replays f := by
  have hpropagate : (p.unitPropagate k).Replays f := h.call rfl rfl
  have hsatisfied : (p.unitPropagate k).isSatisfied.2.Replays f := hpropagate.call rfl rfl
  have hunsatisfiable : (p.unitPropagate k).isSatisfied.2.isUnsatisfiable.2.Replays f :=
    hsatisfied.call rfl rfl
  have hsuggest : (p.unitPropagate k).isSatisfied.2.isUnsatisfiable.2.suggest.2.Replays f :=
    hunsatisfiable.call rfl rfl
  unfold Parties.visit
  dsimp only
  split
  · exact hsatisfied
  split
  · exact hunsatisfiable
  split
  · next hnone => exact (congrArg Prod.snd hnone) ▸ hsuggest
  · next hsome => exact (congrArg Prod.snd hsome) ▸ hsuggest

end Replays

end Parties

/-- One step of a search replays if the steps before do. -/
theorem Parties.Replays.advance {f : σ} {p : Parties σ η (BoundedLiteral n)}
    {j : Journal (Call (BoundedLiteral n))} {frames : List (Frame (BoundedLiteral n))} {step : Step}
    {t : Search σ η (BoundedLiteral n)} (h : p.Replays f)
    (ht : (p.search j frames step).advance = some t) :
    ∃ q frames step, t = Parties.search q j frames step ∧ q.Replays f := by
  cases step with
  | enter level =>
    have hnode := h.visit (k := level)
    rcases hvisit : p.visit level with ⟨satisfiable | l, q⟩
    · rw [Parties.advance_answer hvisit] at ht
      rw [hvisit] at hnode
      exact ⟨q, _, _, (Option.some.inj ht).symm, hnode⟩
    · rw [Parties.advance_decide hvisit] at ht
      rw [hvisit] at hnode
      exact ⟨_, _, _, (Option.some.inj ht).symm, hnode.assign⟩
  | leave answer =>
    cases frames with
    | nil => cases ht
    | cons frame frames =>
      obtain ⟨level, l, phase⟩ := frame
      cases phase with
      | negated =>
        rw [Parties.advance_leave_negated] at ht
        exact ⟨p, _, _, (Option.some.inj ht).symm, h⟩
      | decided =>
        cases answer with
        | true =>
          rw [Parties.advance_leave_true] at ht
          exact ⟨p, _, _, (Option.some.inj ht).symm, h⟩
        | false =>
          rw [Parties.advance_leave_decided] at ht
          exact ⟨_, _, _, (Option.some.inj ht).symm, h.backtrack.assign⟩

/-- Wherever a search has come to, its calls have made the formula what it is. -/
theorem Search.exists_calls_of_reaches {f : σ} {h : η} {j : Journal (Call (BoundedLiteral n))}
    {t : Search σ η (BoundedLiteral n)} (ht : (start f h j).Reaches t) :
    ∃ calls : List (Call (BoundedLiteral n)), t.journal = calls.foldl Journal.note j ∧
      t.formula = Moves.after f (Moves.ofOperations n (calls.filterMap Call.operation?)) := by
  suffices H : ∃ p frames step, t = Parties.search p j frames step ∧ p.Replays f by
    obtain ⟨p, frames, step, rfl, hp⟩ := H
    exact ⟨p.calls, rfl, hp⟩
  induction ht with
  | refl => exact ⟨⟨f, h, []⟩, [], .enter 0, rfl, rfl⟩
  | tail _ hstep ih =>
    obtain ⟨p, frames, step, rfl, hp⟩ := ih
    exact hp.advance hstep

end

end Dpll
