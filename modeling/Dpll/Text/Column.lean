/-! Text set in columns of a fixed width. A text that is wider than its column is not cut. -/

namespace Dpll.Text

/-- The text at the left end of its column. -/
def alignLeft (width : Nat) (text : String) : String := text.pushn ' ' (width - text.length)

/-- The text at the right end of its column. -/
def alignRight (width : Nat) (text : String) : String :=
  "".pushn ' ' (width - text.length) ++ text

end Dpll.Text
