import Dpll.Backtrackable
import Dpll.Literal.Bounded

/-! Clauses that shrink. Falsified literals are taken out of the live list and logged with the
position they were taken from; undoing puts the newest ones back first, so that every literal
returns to its place. -/

namespace Dpll

/-- A literal taken out of a clause: at which level and from which position. -/
structure Removal (n : Nat) where
  level : Level
  position : Nat
  literal : BoundedLiteral n

/-- A clause with the literals that are not falsified and the log of the others. -/
structure ShrinkingClause (n : Nat) where
  /-- The literals not taken out, in their order of writing. -/
  live : List (BoundedLiteral n)
  /-- The literals taken out, newest first. -/
  removals : List (Removal n)
  /-- The level at which the clause was first satisfied. -/
  satisfiedAt : Option Level

namespace ShrinkingClause

variable {n : Nat}

/-- The clause of the given literals, a repeated literal kept once. -/
def ofLiterals (ls : List (BoundedLiteral n)) : ShrinkingClause n := ⟨ls.eraseDups, [], none⟩

/-- Whether a true literal was seen. -/
def isSatisfied (c : ShrinkingClause n) : Bool := c.satisfiedAt.isSome

/-- Whether every literal is falsified. -/
def isUnsatisfiable (c : ShrinkingClause n) : Bool := !c.isSatisfied && c.live.isEmpty

/-- The single live literal of a clause that is not satisfied. -/
def unitLiteral? (c : ShrinkingClause n) : Option (BoundedLiteral n) :=
  match c.isSatisfied, c.live with
  | false, [l] => some l
  | _, _ => none

/-- The number of distinct literals of the clause. -/
def size (c : ShrinkingClause n) : Nat := c.live.length + c.removals.length

/-- Makes a literal true: a clause that shows it becomes satisfied, any other loses the
opposite literal. -/
def assign (c : ShrinkingClause n) (l : BoundedLiteral n) (level : Level) :
    ShrinkingClause n :=
  if !c.isSatisfied && c.live.contains l then
    { c with satisfiedAt := some level }
  else
    match c.live.idxOf? (-l) with
    | some position =>
      { c with
        live := c.live.eraseIdx position
        removals := ⟨level, position, -l⟩ :: c.removals }
    | none => c

/-- Puts back the newest removals as long as they lie above `level`. -/
def reinsert (level : Level) :
    List (BoundedLiteral n) → List (Removal n) → List (BoundedLiteral n) × List (Removal n)
  | live, [] => (live, [])
  | live, r :: rs =>
    if r.level ≤ level then (live, r :: rs)
    else reinsert level (live.insertIdx r.position r.literal) rs

/-- Undoes what happened to the clause above `level`, up to the newest removal that does not
lie above it. -/
def backtrack (c : ShrinkingClause n) (level : Level) : ShrinkingClause n :=
  let (live, removals) := reinsert level c.live c.removals
  ⟨live, removals, c.satisfiedAt.filter (· ≤ level)⟩

end ShrinkingClause

end Dpll
