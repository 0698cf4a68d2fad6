import Dpll.Text.Blank

/-! Words: the longest runs of characters that are not blank. -/

namespace Dpll.Text

/-- The words of a text, in order. -/
def words (cs : List Char) : List (List Char) :=
  (cs.splitOnP isBlank).filter fun word => !word.isEmpty

/-- The text without the blanks at its ends. -/
def trim (cs : List Char) : List Char :=
  ((cs.dropWhile isBlank).reverse.dropWhile isBlank).reverse

end Dpll.Text
