import Dpll.Adjacency.Clause
import Dpll.Adjacency.Trail
import Dpll.Journal

/-! The adjacency-list formula: every variable knows the clauses that mention it, and making a
literal true visits all of them. Unit propagation looks through all clauses for the first unit
one after every forced literal; since each forced literal satisfies the clause that forced it,
the number of clauses not satisfied bounds the rounds. -/

namespace Dpll

/-- A formula of `m` shrinking clauses over `n` variables. -/
structure Adjacency (n m : Nat) where
  clauses : Vector (ShrinkingClause n) m
  /-- The clauses that mention a variable, in order. -/
  occurrences : Vector (Array (Fin m)) n
  assigned : LevelTrail n
  /-- The level at which a clause was first found falsified. -/
  unsatisfiableAt : Option Level
  propagationSteps : Nat
  journal : Journal (ClauseEvent (BoundedLiteral n))

namespace Adjacency

variable {n m : Nat}

/-- For every variable the clauses that mention it, each once. -/
def occurrencesOf (clauses : Vector (ShrinkingClause n) m) : Vector (Array (Fin m)) n :=
  (List.finRange m).foldl
    (fun table i =>
      ((clauses.get i).live.map (·.position)).eraseDups.foldl
        (fun table v => modifyAt table v (·.push i)) table)
    (.replicate n #[])

/-- The formula of the given clauses, with nothing assigned. -/
def ofClauses (cs : List (List (BoundedLiteral n))) : Adjacency n cs.length :=
  let clauses : Vector (ShrinkingClause n) cs.length :=
    ⟨(cs.map ShrinkingClause.ofLiterals).toArray, by simp⟩
  { clauses
    occurrences := occurrencesOf clauses
    assigned := .empty
    unsatisfiableAt := if clauses.any (·.isUnsatisfiable) then some 0 else none
    propagationSteps := 0
    journal := .closed }

/-- Whether every clause is satisfied. -/
def isSatisfied (f : Adjacency n m) : Bool := f.clauses.all (·.isSatisfied)

/-- Whether a clause was found falsified. -/
def isUnsatisfiable (f : Adjacency n m) : Bool := f.unsatisfiableAt.isSome

/-- The number of clauses not satisfied. -/
def numUnsatisfied (f : Adjacency n m) : Nat := f.clauses.countP fun c => !c.isSatisfied

/-- The literal of the first unit clause. -/
def unitLiteral? (f : Adjacency n m) : Option (BoundedLiteral n) :=
  f.clauses.findSome? (·.unitLiteral?)

/-- Shows a true literal to one of the clauses that mention its variable. -/
def visit (l : BoundedLiteral n) (level : Level) (f : Adjacency n m) (i : Fin m) :
    Adjacency n m :=
  let f := { f with clauses := modifyAt f.clauses i (·.assign l level) }
  if (f.clauses.get i).isUnsatisfiable then
    { f with
      unsatisfiableAt := f.unsatisfiableAt.or (some level)
      journal := f.journal.note (.falsifiedBy i l level) }
  else f

/-- Makes a literal true at a level. -/
def assign (f : Adjacency n m) (l : BoundedLiteral n) (level : Level) : Adjacency n m :=
  (f.occurrences.get l.position).foldl (visit l level)
    { f with assigned := f.assigned.record l level }

/-- At most `rounds` rounds of unit propagation. -/
def propagateFor (level : Level) : (rounds : Nat) → Adjacency n m → Adjacency n m
  | 0, f => f
  | rounds + 1, f =>
    if f.isUnsatisfiable then f
    else
      match f.unitLiteral? with
      | none => f
      | some l =>
        let f := f.assign l level
        propagateFor level rounds { f with propagationSteps := f.propagationSteps + 1 }

/-- Forces the literals of unit clauses until there is none or a clause is falsified. -/
def unitPropagate (f : Adjacency n m) (level : Level) : Adjacency n m :=
  f.propagateFor level f.numUnsatisfied

/-- Undoes what was assigned above `level`. Only clauses that mention a literal forgotten here
are visited. -/
def backtrack (f : Adjacency n m) (level : Level) : Adjacency n m :=
  let clauses := (f.assigned.above level).foldl
    (fun clauses l => (f.occurrences.get l.position).foldl
      (fun clauses i => modifyAt clauses i (·.backtrack level)) clauses)
    f.clauses
  { f with
    clauses
    assigned := f.assigned.keepUpTo level
    unsatisfiableAt := f.unsatisfiableAt.filter (· ≤ level) }

/-- The literals made true, level by level. -/
def assignment (f : Adjacency n m) : List (BoundedLiteral n) := f.assigned.toList

/-- The live literals of every clause that is neither satisfied nor falsified. -/
def liveClauses (f : Adjacency n m) : List (List (BoundedLiteral n)) :=
  (f.clauses.toList.filter fun c => !c.isSatisfied && !c.live.isEmpty).map (·.live)

/-- The number of distinct literals of all clauses together. -/
def numLiterals (f : Adjacency n m) : Nat :=
  f.clauses.toList.foldl (fun total c => total + c.size) 0

instance : Backtrackable (Adjacency n m) (BoundedLiteral n) where
  assign := assign
  unitPropagate := unitPropagate
  backtrack := backtrack
  isSatisfied := isSatisfied
  isUnsatisfiable := isUnsatisfiable
  propagationSteps := propagationSteps
  assignment := assignment
  liveClauses := liveClauses

end Adjacency

end Dpll
