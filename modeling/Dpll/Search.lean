import Dpll.Backtrackable
import Dpll.Heuristic
import Dpll.Journal

/-! The search over an explicit stack of pending decisions. A node propagates units; unless the
formula is then satisfied or unsatisfiable, it decides a literal one level up and tries it, and
if that fails its negation. Each step of the search is `Search.advance`. A run that never has
more than a given number of decisions pending is finite, because each pending decision doubles
the work still ahead at most once; that is the measure of `Search.run`. -/

namespace Dpll

/-- Which literal of a decision is being tried. -/
inductive Phase where
  /-- The decided literal. -/
  | decided
  /-- Its negation; if this fails too, the decision has failed. -/
  | negated
deriving DecidableEq, Repr

/-- A pending decision: its literal was decided at `level`, and is tried one level above. -/
structure Frame (ℓ : Type u) where
  level : Level
  literal : ℓ
  phase : Phase

/-- What the search does next. -/
inductive Step where
  /-- Start a node at a level. -/
  | enter (level : Level)
  /-- Leave a node, with `false` if it was found unsatisfiable. -/
  | leave (answer : Bool)
deriving DecidableEq, Repr

/-- A request to the formula or the heuristic, with the answer if there is one. -/
inductive Call (ℓ : Type u) where
  | unitPropagate (level : Level)
  | isSatisfied (answer : Bool)
  | isUnsatisfiable (answer : Bool)
  | suggest (answer : Option ℓ)
  | assign (literal : ℓ) (level : Level)
  | backtrack (level : Level)
deriving DecidableEq, Repr

/-- A search under way over a formula of type `σ` with a heuristic of type `η`. -/
structure Search (σ : Type u) (η : Type v) (ℓ : Type w) where
  formula : σ
  heuristic : η
  /-- The pending decisions, newest first. -/
  frames : List (Frame ℓ)
  step : Step
  journal : Journal (Call ℓ)

namespace Search

variable {σ : Type u} {η : Type v} {ℓ : Type w}

/-- The search that starts at level zero. -/
def start (f : σ) (h : η) (journal : Journal (Call ℓ)) : Search σ η ℓ :=
  ⟨f, h, [], .enter 0, journal⟩

/-- Notes a call. -/
def note (s : Search σ η ℓ) (call : Call ℓ) : Search σ η ℓ :=
  { s with journal := s.journal.note call }

variable [Backtrackable σ ℓ] [DecisionSource η σ ℓ] [Neg ℓ]

/-- Makes a literal true. -/
def assign (s : Search σ η ℓ) (l : ℓ) (level : Level) : Search σ η ℓ :=
  { s with formula := Backtrackable.assign s.formula l level }.note (.assign l level)

/-- Starts a node at a level: propagates, and decides a literal if the formula is still
undecided. A formula that is undecided without an open literal counts as satisfiable. -/
def enter (s : Search σ η ℓ) (level : Level) : Search σ η ℓ :=
  let s := { s with formula := Backtrackable.unitPropagate s.formula level }
  let s := s.note (.unitPropagate level)
  let satisfied := Backtrackable.isSatisfied s.formula
  let s := s.note (.isSatisfied satisfied)
  if satisfied then { s with step := .leave true }
  else
    let unsatisfiable := Backtrackable.isUnsatisfiable s.formula
    let s := s.note (.isUnsatisfiable unsatisfiable)
    if unsatisfiable then { s with step := .leave false }
    else
      let (suggestion, heuristic) := DecisionSource.suggest s.heuristic s.formula
      let s := { s with heuristic }.note (.suggest suggestion)
      match suggestion with
      | none => { s with step := .leave true }
      | some l =>
        { s.assign l (level + 1) with
          frames := ⟨level, l, .decided⟩ :: s.frames
          step := .enter (level + 1) }

/-- Returns from a node to the newest pending decision: a failed literal is followed by its
negation, and a decision is over once it succeeds or has no literal left. -/
def resume (s : Search σ η ℓ) (answer : Bool) (frame : Frame ℓ) (frames : List (Frame ℓ)) :
    Search σ η ℓ :=
  if answer || frame.phase = .negated then { s with frames, step := .leave answer }
  else
    let s := { s with formula := Backtrackable.backtrack s.formula frame.level }
    let s := s.note (.backtrack frame.level)
    { s.assign (-frame.literal) (frame.level + 1) with
      frames := { frame with phase := .negated } :: frames
      step := .enter (frame.level + 1) }

/-- One step of the search; none once it has left its first node. -/
def advance (s : Search σ η ℓ) : Option (Search σ η ℓ) :=
  match s.step, s.frames with
  | .enter level, _ => some (s.enter level)
  | .leave _, [] => none
  | .leave answer, frame :: frames => some (s.resume answer frame frames)

/-- The work ahead of a node below which at most `depth` decisions can be pending. -/
def nodeWork : (depth : Nat) → Nat
  | 0 => 2
  | depth + 1 => 2 * nodeWork depth + 3

/-- The work ahead of the pending decisions when at most `depth` may be pending. -/
def framesWork (depth : Nat) : List (Frame ℓ) → Nat
  | [] => 0
  | frame :: frames =>
    (if frame.phase = .negated then 1 else nodeWork (depth - (frames.length + 1)) + 2)
      + framesWork depth frames

/-- The work ahead of a search when at most `depth` decisions may be pending. -/
def work (depth : Nat) (s : Search σ η ℓ) : Nat :=
  (match s.step with
    | .enter _ => nodeWork (depth - s.frames.length)
    | .leave _ => 1) + framesWork depth s.frames

omit [Neg ℓ] in
/-- A node is left at once or decides one literal. -/
theorem enter_cases (s : Search σ η ℓ) (level : Level) :
    (∃ answer, (s.enter level).step = .leave answer ∧ (s.enter level).frames = s.frames) ∨
      ∃ l, (s.enter level).step = .enter (level + 1) ∧
        (s.enter level).frames = ⟨level, l, .decided⟩ :: s.frames := by
  generalize hr : s.enter level = r
  simp only [enter] at hr
  split at hr
  · exact .inl ⟨true, by simp [← hr], by simp [← hr, note]⟩
  · split at hr
    · exact .inl ⟨false, by simp [← hr], by simp [← hr, note]⟩
    · split at hr
      · exact .inl ⟨true, by simp [← hr], by simp [← hr, note]⟩
      · exact .inr ⟨_, by simp [← hr], by simp [← hr, note]; rfl⟩

omit [DecisionSource η σ ℓ] in
/-- A decision is over, or its negation is tried. -/
theorem resume_cases (s : Search σ η ℓ) (answer : Bool) (frame : Frame ℓ)
    (frames : List (Frame ℓ)) :
    ((s.resume answer frame frames).step = .leave answer ∧
        (s.resume answer frame frames).frames = frames) ∨
      frame.phase ≠ .negated ∧
        (s.resume answer frame frames).step = .enter (frame.level + 1) ∧
        (s.resume answer frame frames).frames = { frame with phase := .negated } :: frames := by
  unfold resume
  split
  · exact .inl ⟨rfl, rfl⟩
  · rename_i h
    simp only [Bool.or_eq_true, decide_eq_true_eq, not_or] at h
    exact .inr ⟨h.2, rfl, rfl⟩

theorem two_le_nodeWork (depth : Nat) : 2 ≤ nodeWork depth := by
  cases depth <;> simp only [nodeWork] <;> omega

theorem work_advance_lt {depth : Nat} {s t : Search σ η ℓ} (h : s.advance = some t)
    (hdepth : t.frames.length ≤ depth) : t.work depth < s.work depth := by
  unfold advance at h
  split at h
  · rename_i level hstep
    rcases Option.some.inj h with rfl
    have h2 := two_le_nodeWork (depth - s.frames.length)
    rcases s.enter_cases level with ⟨answer, hs, hf⟩ | ⟨l, hs, hf⟩
    · simp only [work, hs, hf, hstep]
      omega
    · rw [hf, List.length_cons] at hdepth
      obtain ⟨k, hk⟩ : ∃ k, depth - s.frames.length = k + 1 :=
        ⟨depth - s.frames.length - 1, by omega⟩
      have hk' : depth - (s.frames.length + 1) = k := by omega
      simp [work, hs, hf, hstep, framesWork, hk, hk', nodeWork]
      omega
  · simp at h
  · rename_i answer frame frames hstep hframes
    rcases Option.some.inj h with rfl
    rcases s.resume_cases answer frame frames with ⟨hs, hf⟩ | ⟨hp, hs, hf⟩
    · simp only [work, hs, hf, hstep, hframes, framesWork]
      have h2 := two_le_nodeWork (depth - (frames.length + 1))
      split <;> omega
    · simp [work, hs, hf, hstep, hframes, framesWork, hp]
      omega

/-- Runs the search to its end; none if more than `depth` decisions were pending at once. -/
def run (depth : Nat) (s : Search σ η ℓ) : Option (Search σ η ℓ) :=
  match _h : s.advance with
  | none => some s
  | some t => if _hdepth : t.frames.length ≤ depth then run depth t else none
termination_by s.work depth
decreasing_by exact work_advance_lt _h _hdepth

/-- The answer of a search that has left its first node. -/
def answer? (s : Search σ η ℓ) : Option Bool :=
  match s.step, s.frames with
  | .leave answer, [] => some answer
  | _, _ => none

end Search

end Dpll
