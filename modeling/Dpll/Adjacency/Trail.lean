import Dpll.Backtrackable
import Dpll.Literal.Bounded

/-! The literals made true, listed level by level. Within a level the order is that of
assignment; a literal recorded at a low level comes before all those of higher levels, however
late it was recorded. -/

namespace Dpll

/-- The recorded literals with their levels, from the highest level down and, within a level,
newest first. -/
structure LevelTrail (n : Nat) where
  entries : List (Level × BoundedLiteral n)

namespace LevelTrail

variable {n : Nat}

/-- The trail of no literal. -/
def empty : LevelTrail n := ⟨[]⟩

/-- Records a literal as the last one of its level. -/
def record (t : LevelTrail n) (l : BoundedLiteral n) (level : Level) : LevelTrail n :=
  ⟨t.entries.takeWhile (level < ·.1) ++ (level, l) :: t.entries.dropWhile (level < ·.1)⟩

/-- The literals of the levels above `level`. -/
def above (t : LevelTrail n) (level : Level) : List (BoundedLiteral n) :=
  (t.entries.takeWhile (level < ·.1)).map (·.2)

/-- Forgets the levels above `level`. -/
def keepUpTo (t : LevelTrail n) (level : Level) : LevelTrail n :=
  ⟨t.entries.dropWhile (level < ·.1)⟩

/-- The literals by level, in order of recording within a level. -/
def toList (t : LevelTrail n) : List (BoundedLiteral n) := (t.entries.map (·.2)).reverse

end LevelTrail

end Dpll
