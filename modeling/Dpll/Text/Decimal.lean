import Dpll.Double

/-! Decimal text of numbers that are counted in units of their last place, and of doubles. -/

namespace Dpll.Text

/-- At least `width` digits, with zeros ahead. -/
def digits (width n : Nat) : String :=
  let text := toString n
  "".pushn '0' (width - text.length) ++ text

/-- How many units of the last of some decimal places make a whole. -/
def scale : (places : Nat) → Nat
  | 0 => 1
  | places + 1 => 10 * scale places

/-- The number with all its decimal places. -/
def fixed (places n : Nat) : String :=
  if places = 0 then toString n
  else s!"{n / scale places}.{digits places (n % scale places)}"

/-- The number without zeros at the end of its decimal places. -/
def trimmed : Nat → Nat → String
  | 0, n => toString n
  | places + 1, n => if n % 10 = 0 then trimmed places (n / 10) else fixed (places + 1) n

/-- How many units of the last of some decimal places come nearest to `x`. -/
def units (places : Nat) (x : Rat) : Nat := Double.nearestWhole (x * scale places)

/-- The number with the given number of decimal places. -/
def rounded (places : Nat) (x : Rat) : String := fixed places (units places x)

/-- The least number of decimal places that tell a double from all others. -/
def places (x : Rat) : Nat :=
  let tells (places : Nat) : Bool := Double.nearest (mkRat (units places x) (scale places)) = x
  ((List.range 32).find? tells).getD 0

/-- The number with its first digit that is not zero ahead of the point, and the place of this
digit. -/
def scientific (places n : Nat) : String :=
  let text := toString n
  trimmed (text.length - 1) n ++ "e-" ++ toString (places + 1 - text.length)

/-- A double with as many decimal places as tell it from all others, and one at least. A very small
one begins with its first digit that is not zero. -/
def shortest (x : Rat) : String :=
  let n := units (places x) x
  if places x = 0 then toString n ++ ".0"
  else if x < 1 / 100000 then scientific (places x) n
  else fixed (places x) n

end Dpll.Text
