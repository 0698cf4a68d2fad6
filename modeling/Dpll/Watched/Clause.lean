import Dpll.Literal.Bounded

/-! Clauses with two watched positions. The body never changes; a watch moves along it in
cyclic order to the next literal that is worth watching. -/

namespace Dpll

/-- One of the two watches of a clause. -/
inductive Watch where
  | first
  | second
deriving DecidableEq, Repr

/-- The other watch of the clause. -/
def Watch.other : Watch → Watch
  | first => second
  | second => first

/-- A clause with the positions it watches and what is known of it. A clause of fewer than two
literals watches nothing, and its positions mean nothing. -/
structure WatchedClause (n : Nat) where
  literals : Array (BoundedLiteral n)
  firstPosition : Nat
  secondPosition : Nat
  knownSatisfied : Bool
  queued : Bool

/-- What a falsified watch does next, in a clause of `k` literals. -/
inductive Replacement (k : Nat) where
  /-- A true literal was met. -/
  | satisfied
  /-- The watch moves to an open literal that the other watch leaves free. -/
  | move (position : Fin k)
  /-- Nothing is left to watch. -/
  | unit

namespace WatchedClause

variable {n : Nat}

/-- The clause of the given literals, a repeated literal kept once. It watches its first two
literals, and is queued at once if it is unit. -/
def ofLiterals (ls : List (BoundedLiteral n)) : WatchedClause n :=
  let literals := ls.eraseDups.toArray
  { literals
    firstPosition := 0
    secondPosition := if literals.size < 2 then 0 else 1
    knownSatisfied := false
    queued := literals.size = 1 }

/-- The position of a watch. -/
def position (c : WatchedClause n) : Watch → Nat
  | .first => c.firstPosition
  | .second => c.secondPosition

/-- Moves a watch. -/
def setPosition (c : WatchedClause n) (w : Watch) (p : Nat) : WatchedClause n :=
  match w with
  | .first => { c with firstPosition := p }
  | .second => { c with secondPosition := p }

/-- The positions of a clause of `k` literals in cyclic order, `current` last. -/
def cyclicFrom (k current : Nat) : List (Fin k) :=
  (List.finRange k).drop (current + 1) ++ (List.finRange k).take (current + 1)

/-- Looks for a true literal, or an open one that the other watch leaves free, from the
position after the watch once around the clause. -/
def findReplacement (c : WatchedClause n) (isTrue isOpen : BoundedLiteral n → Bool)
    (w : Watch) : Replacement c.literals.size :=
  let found := (cyclicFrom c.literals.size (c.position w)).findSome? fun p =>
    if isTrue c.literals[p] then some .satisfied
    else if p.val ≠ c.position w.other && isOpen c.literals[p] then some (.move p)
    else none
  found.getD .unit

end WatchedClause

end Dpll
