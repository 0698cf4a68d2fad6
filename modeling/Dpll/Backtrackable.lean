/-! What a search needs of a formula: to fix literals at decision levels, to propagate unit
clauses, and to undo everything above a level. -/

namespace Dpll

/-- A decision level; level zero lies below every decision. -/
abbrev Level := Nat

/-- A formula of type `σ` over literals of type `ℓ` that can be searched. -/
class Backtrackable (σ : Type u) (ℓ : outParam (Type v)) where
  /-- Makes a literal true at a level. -/
  assign : σ → ℓ → Level → σ
  /-- Forces the last open literal of unit clauses at a level until none is left or a clause
  is falsified. -/
  unitPropagate : σ → Level → σ
  /-- Undoes what was fixed above a level. -/
  backtrack : σ → Level → σ
  /-- Whether every clause is known to be satisfied. -/
  isSatisfied : σ → Bool
  /-- Whether some clause is known to be falsified. -/
  isUnsatisfiable : σ → Bool
  /-- How many literals unit propagation has forced. -/
  propagationSteps : σ → Nat
  /-- The literals that are true. -/
  assignment : σ → List ℓ
  /-- The clauses not known to be satisfied, each with its open literals. -/
  liveClauses : σ → List (List ℓ)

/-- An occurrence of interest while a formula over literals of type `ℓ` is searched. Clauses
are given by their position in the formula. -/
inductive ClauseEvent (ℓ : Type u) where
  /-- Making a literal true left the clause without a live literal. -/
  | falsifiedBy (clause : Nat) (literal : ℓ) (level : Level)
  /-- The clause has at most one open literal left. -/
  | becameUnit (clause : Nat) (level : Level)
  /-- A queued clause turned out to have no open literal. -/
  | falsified (clause : Nat) (level : Level)
  /-- A queued clause turned out to have several open literals. -/
  | noLongerUnit (clause : Nat)

/-- The line that reports an event. -/
def ClauseEvent.message [ToString ℓ] : ClauseEvent ℓ → String
  | falsifiedBy clause literal level =>
    s!"clause {clause} falsified by {literal} at level {level}"
  | becameUnit clause level => s!"clause {clause} became unit at level {level}"
  | falsified clause level => s!"clause {clause} falsified at level {level}"
  | noLongerUnit clause => s!"clause {clause} is no longer unit"

end Dpll
