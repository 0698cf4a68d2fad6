import Dpll.Text.Decimal

/-! Spans of time. -/

namespace Dpll

/-- A span of time in whole nanoseconds. -/
structure Duration where
  nanoseconds : Nat
deriving DecidableEq, Repr

namespace Duration

/-- A second in nanoseconds. -/
def second : Nat := 1000000000

/-- The time from one moment to another, in nanoseconds of one clock. -/
def between (start stop : Nat) : Duration := ⟨stop - start⟩

/-- The span in the largest unit of which it is at least one, as exact as it is. -/
def toText (d : Duration) : String :=
  if second ≤ d.nanoseconds then Text.trimmed 9 d.nanoseconds ++ "s"
  else if 1000000 ≤ d.nanoseconds then Text.trimmed 6 d.nanoseconds ++ "ms"
  else if 1000 ≤ d.nanoseconds then Text.trimmed 3 d.nanoseconds ++ "µs"
  else s!"{d.nanoseconds}ns"

/-- The span in seconds, in double precision. The part below a second is rounded by itself. -/
def inSeconds (d : Duration) : Rat :=
  Double.nearest (Double.nearest (d.nanoseconds / second : Nat) +
    Double.quotient (d.nanoseconds % second : Nat) second)

/-- The span in seconds, as exact as a double is. -/
def seconds (d : Duration) : String := Text.shortest d.inSeconds

/-- The span in seconds with three decimal places. -/
def roundedSeconds (d : Duration) : String := Text.rounded 3 d.inSeconds

/-- How many of `count` events there were in a second. -/
def rate (d : Duration) (count : Nat) : String :=
  if d.nanoseconds = 0 then "0" else Text.rounded 0 (Double.quotient count d.inSeconds)

end Duration

end Dpll
