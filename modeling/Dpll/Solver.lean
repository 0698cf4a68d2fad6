import Dpll.Cnf
import Dpll.Representation
import Dpll.Search

/-! Solving: a formula in conjunctive normal form is brought into one of the two
representations and searched. A formula with a literal out of range is refused. -/

namespace Dpll

/-- A search that has come to its end. -/
structure Finished (σ : Type u) (η : Type v) (ℓ : Type w) where
  /-- Whether the formula was found satisfiable. -/
  answer : Bool
  formula : σ
  heuristic : η
  /-- The calls made, if they were recorded. -/
  calls : List (Call ℓ)

/-- Searches a formula from level zero; none if more than `depth` decisions were pending. -/
def search? {σ : Type u} {η : Type v} {ℓ : Type w} [Backtrackable σ ℓ] [DecisionSource η σ ℓ]
    [Neg ℓ] (depth : Nat) (f : σ) (h : η) (journal : Journal (Call ℓ)) :
    Option (Finished σ η ℓ) :=
  ((Search.start f h journal).run depth).bind fun s =>
    s.answer?.map fun answer => ⟨answer, s.formula, s.heuristic, s.journal.entries⟩

/-- Searches a formula from level zero with one of the heuristics. -/
def Tracked.search? {n m : Nat} (f : Tracked n m) (h : Heuristic)
    (journal : Journal (Call (BoundedLiteral n))) :
    Option (Finished (Tracked n m) Heuristic (BoundedLiteral n)) :=
  Dpll.search? f.decisionBound f h journal

/-- What solving a formula over `n` variables ends with. -/
structure Solution (n : Nat) where
  numClauses : Nat
  /-- The formula before the search. -/
  initial : Tracked n numClauses
  /-- The search, ended. -/
  finished : Finished (Tracked n numClauses) Heuristic (BoundedLiteral n)

namespace Solution

variable {n : Nat}

/-- The formula after the search. -/
def formula (s : Solution n) : Tracked n s.numClauses := s.finished.formula

/-- The heuristic after the search. -/
def heuristic (s : Solution n) : Heuristic := s.finished.heuristic

/-- The literals that the search has made true. -/
def assignment (s : Solution n) : List Literal :=
  (Backtrackable.assignment s.formula).map (·.toLiteral)

/-- How many literals were forced. -/
def propagationSteps (s : Solution n) : Nat := Backtrackable.propagationSteps s.formula

/-- Whether the formula was not found unsatisfiable. -/
def isSatisfiable (s : Solution n) : Bool := !Backtrackable.isUnsatisfiable s.formula

end Solution

/-- Solves a formula in the given representation with the given heuristic, recording the calls
of the search if asked to. -/
def Cnf.solve? (f : Cnf) (r : Representation) (h : Heuristic) (recorded : Bool) :
    Option (Solution f.numVars) := do
  let clauses ← f.bounded?
  let initial := Tracked.ofClauses r clauses
  let finished ← initial.search? h (if recorded then .blank else .closed)
  return ⟨clauses.length, initial, finished⟩

end Dpll
