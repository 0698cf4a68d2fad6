import Std.Data.HashMap

/-! Scores of literals by the lengths of the clauses they stand in. A clause of `k` literals
gives each of them the weight `2 ^ (-k)`, in double precision. -/

namespace Dpll

/-- The weight of a clause of `k` literals; it is zero when it is too small for a double. -/
def clauseWeight (k : Nat) : Float := Float.scaleB 1 (-(k : Int))

/-- The scores of the literals met so far, and those literals, last one first. -/
structure Scores (ℓ : Type) [BEq ℓ] [Hashable ℓ] where
  score : Std.HashMap ℓ Float
  seen : List ℓ

namespace Scores

variable {ℓ : Type} [BEq ℓ] [Hashable ℓ]

/-- No literal was met yet. -/
def empty : Scores ℓ := ⟨∅, []⟩

/-- The score of a literal. -/
def get (s : Scores ℓ) (l : ℓ) : Float := s.score.getD l 0

/-- Adds a weight to the score of a literal. -/
def add (weight : Float) (s : Scores ℓ) (l : ℓ) : Scores ℓ where
  score := s.score.insert l (s.get l + weight)
  seen := if s.score.contains l then s.seen else l :: s.seen

/-- Adds the weight of a clause to the score of each of its literals. -/
def addClause (s : Scores ℓ) (c : List ℓ) : Scores ℓ := c.foldl (add (clauseWeight c.length)) s

/-- The scores after all clauses, added up in order. -/
def ofClauses (cs : List (List ℓ)) : Scores ℓ := cs.foldl addClause empty

/-- The literal of highest score; of several, the one met first. -/
def best? (s : Scores ℓ) : Option ℓ :=
  s.seen.foldl
    (fun best l =>
      match best with
      | none => some l
      | some b => if s.get l < s.get b then some b else some l)
    none

end Scores

end Dpll
