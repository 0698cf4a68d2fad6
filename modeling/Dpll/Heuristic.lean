import Dpll.Backtrackable
import Dpll.Heuristic.Generator
import Dpll.Heuristic.Score

/-! Decision heuristics. A heuristic reads the live clauses of a formula and suggests one of
their literals; every request counts as a decision, also one that finds no literal. -/

namespace Dpll

/-- A source of decisions for formulas of type `σ`, with a state of its own. -/
class DecisionSource (η : Type u) (σ : Type v) (ℓ : outParam (Type w)) where
  /-- The literal to branch on, if there is one, and the state after the request. -/
  suggest : η → σ → Option ℓ × η

/-- The names of the heuristics. -/
inductive HeuristicName where
  | takeFirst
  | random
  | jeroslowWang
deriving DecidableEq, Repr

namespace HeuristicName

/-- The heuristic used unless another one is asked for. -/
def default : HeuristicName := takeFirst

/-- The name as it is written. -/
def toText : HeuristicName → String
  | takeFirst => "take-first"
  | random => "random"
  | jeroslowWang => "jeroslow-wang"

instance : ToString HeuristicName := ⟨toText⟩

/-- All heuristics. -/
def all : List HeuristicName := [takeFirst, random, jeroslowWang]

/-- The heuristic with the given name, written exactly so. -/
def ofText? (text : String) : Option HeuristicName := all.find? fun h => h.toText = text

end HeuristicName

/-- How the next literal is picked. -/
inductive Policy where
  /-- The first open literal. -/
  | takeFirst
  /-- Any open literal, each occurrence equally likely. -/
  | random (generator : Generator)
  /-- The open literal that stands in the shortest and most clauses. -/
  | jeroslowWang

/-- Picks a literal from the live clauses. -/
def Policy.pick {ℓ : Type} [BEq ℓ] [Hashable ℓ] (p : Policy) (live : List (List ℓ)) :
    Option ℓ × Policy :=
  match p with
  | .takeFirst => (live.findSome? List.head?, .takeFirst)
  | .random g =>
    let (choice, g) := g.choose live.flatten
    (choice, .random g)
  | .jeroslowWang => ((Scores.ofClauses live).best?, .jeroslowWang)

/-- A policy and the number of decisions requested from it. -/
structure Heuristic where
  policy : Policy
  decisions : Nat

namespace Heuristic

/-- The heuristic of the given name before its first decision. -/
def ofName (name : HeuristicName) (seed : UInt64) : Heuristic where
  policy :=
    match name with
    | .takeFirst => .takeFirst
    | .random => .random (.ofSeed seed)
    | .jeroslowWang => .jeroslowWang
  decisions := 0

/-- Suggests a literal of the formula to branch on. -/
def suggest {σ : Type u} {ℓ : Type} [Backtrackable σ ℓ] [BEq ℓ] [Hashable ℓ] (h : Heuristic)
    (f : σ) : Option ℓ × Heuristic :=
  let (choice, policy) := h.policy.pick (Backtrackable.liveClauses f)
  (choice, ⟨policy, h.decisions + 1⟩)

instance {σ : Type u} {ℓ : Type} [Backtrackable σ ℓ] [BEq ℓ] [Hashable ℓ] :
    DecisionSource Heuristic σ ℓ := ⟨suggest⟩

end Heuristic

end Dpll
