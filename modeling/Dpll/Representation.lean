import Dpll.Adjacency
import Dpll.Watched

/-! The two representations of a formula under search, and a formula in either of them. -/

namespace Dpll

/-- How a formula keeps track of its clauses. -/
inductive Representation where
  | adjacencyList
  | watchedLiterals
deriving DecidableEq, Repr

namespace Representation

/-- The representation used unless another one is asked for. -/
def default : Representation := adjacencyList

/-- The representation that a yes-or-no choice of watched literals stands for. -/
def ofWatched (watched : Bool) : Representation :=
  if watched then watchedLiterals else adjacencyList

instance : ToString Representation where
  toString
    | adjacencyList => "adjacency-list"
    | watchedLiterals => "watched-literals"

end Representation

/-- A formula in one of the two representations. -/
inductive Tracked (n m : Nat) where
  | adjacencyList (formula : Adjacency n m)
  | watchedLiterals (formula : Watched n m)

namespace Tracked

variable {n m : Nat}

/-- The formula of the given clauses in a representation, with nothing assigned. -/
def ofClauses (r : Representation) (cs : List (List (BoundedLiteral n))) :
    Tracked n cs.length :=
  match r with
  | .adjacencyList => .adjacencyList (.ofClauses cs)
  | .watchedLiterals => .watchedLiterals (.ofClauses cs)

/-- The representation a formula is in. -/
def representation : Tracked n m → Representation
  | adjacencyList _ => .adjacencyList
  | watchedLiterals _ => .watchedLiterals

/-- How often watch maintenance looked at a clause; adjacency lists do not count. -/
def checkedClauses? : Tracked n m → Option Nat
  | adjacencyList _ => none
  | watchedLiterals f => some f.checkedClauses

/-- The events noted so far. -/
def journal : Tracked n m → Journal (ClauseEvent (BoundedLiteral n))
  | adjacencyList f => f.journal
  | watchedLiterals f => f.journal

/-- The formula with another journal. -/
def withJournal (f : Tracked n m) (j : Journal (ClauseEvent (BoundedLiteral n))) :
    Tracked n m :=
  match f with
  | adjacencyList f => adjacencyList { f with journal := j }
  | watchedLiterals f => watchedLiterals { f with journal := j }

/-- More decisions than this are never pending at once: each one that is pending has fixed a
literal occurrence of its own. -/
def decisionBound : Tracked n m → Nat
  | adjacencyList f => n + f.numLiterals
  | watchedLiterals f => n + f.numLiterals

instance : Backtrackable (Tracked n m) (BoundedLiteral n) where
  assign
    | adjacencyList f, l, level => adjacencyList (f.assign l level)
    | watchedLiterals f, l, level => watchedLiterals (f.assign l level)
  unitPropagate
    | adjacencyList f, level => adjacencyList (f.unitPropagate level)
    | watchedLiterals f, level => watchedLiterals (f.unitPropagate level)
  backtrack
    | adjacencyList f, level => adjacencyList (f.backtrack level)
    | watchedLiterals f, level => watchedLiterals (f.backtrack level)
  isSatisfied
    | adjacencyList f => f.isSatisfied
    | watchedLiterals f => f.isSatisfied
  isUnsatisfiable
    | adjacencyList f => f.isUnsatisfiable
    | watchedLiterals f => f.isUnsatisfiable
  propagationSteps
    | adjacencyList f => f.propagationSteps
    | watchedLiterals f => f.propagationSteps
  assignment
    | adjacencyList f => f.assignment
    | watchedLiterals f => f.assignment
  liveClauses
    | adjacencyList f => f.liveClauses
    | watchedLiterals f => f.liveClauses

end Tracked

end Dpll
