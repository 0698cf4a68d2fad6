import Dpll.Solver

/-! What a search reports while it runs. The events are read off the recorded calls: each call
is made again on the formula before the search, now with a journal, and what the formula notes
is listed between the events of the search itself. -/

namespace Dpll

/-- An occurrence of interest during a search. -/
inductive SearchEvent (ℓ : Type u) where
  /-- A literal was decided, to be tried at a level. -/
  | decide (literal : ℓ) (level : Level)
  /-- A decision failed; everything above a level is undone and the literal tried instead. -/
  | backtrack (level : Level) (literal : ℓ)
  /-- The formula is undecided, and there is no literal to decide. -/
  | stuck (level : Level)
  /-- Something happened to a clause. -/
  | clause (event : ClauseEvent ℓ)

namespace SearchEvent

/-- The line that reports an event. -/
def message [ToString ℓ] : SearchEvent ℓ → String
  | decide literal level => s!"decide {literal} at level {level}"
  | backtrack level literal => s!"backtrack to {level}, trying {literal}"
  | stuck level => s!"no open literal at level {level} although the formula is undecided"
  | clause event => event.message

/-- Whether the event should not happen. -/
def isWarning : SearchEvent ℓ → Bool
  | stuck _ => true
  | _ => false

end SearchEvent

/-- Makes the calls again from `f`, at a node of the given level, and lists what happens. -/
def Tracked.eventsOf {n m : Nat} (f : Tracked n m) (level : Level) :
    List (Call (BoundedLiteral n)) → List (SearchEvent (BoundedLiteral n))
  | [] => []
  | .unitPropagate k :: calls =>
    let f := Backtrackable.unitPropagate (f.withJournal .blank) k
    f.journal.entries.map .clause ++ f.eventsOf k calls
  | .suggest (some l) :: calls => .decide l (level + 1) :: f.eventsOf level calls
  | .suggest none :: calls => .stuck level :: f.eventsOf level calls
  | .backtrack k :: .assign l j :: calls =>
    let f := Backtrackable.backtrack f k
    let f := Backtrackable.assign (f.withJournal .blank) l j
    .backtrack k l :: (f.journal.entries.map .clause ++ f.eventsOf level calls)
  | .assign l k :: calls =>
    let f := Backtrackable.assign (f.withJournal .blank) l k
    f.journal.entries.map .clause ++ f.eventsOf level calls
  | .backtrack k :: calls => Tracked.eventsOf (Backtrackable.backtrack f k) level calls
  | .isSatisfied _ :: calls => f.eventsOf level calls
  | .isUnsatisfiable _ :: calls => f.eventsOf level calls

/-- The events of a search whose calls were recorded. -/
def Solution.events {n : Nat} (s : Solution n) : List (SearchEvent (BoundedLiteral n)) :=
  s.initial.eventsOf 0 s.finished.calls

end Dpll
