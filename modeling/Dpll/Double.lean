/-! Numbers in double precision, as the rational numbers that they are. None of them is negative,
and their range is that of times and counts, so neither end of the range of doubles matters. -/

namespace Dpll.Double

/-- The whole number nearest to `x`; of two, the even one. -/
def nearestWhole (x : Rat) : Nat :=
  let below := x.floor.toNat
  let rest := x - below
  if rest < 1 / 2 ∨ rest = 1 / 2 ∧ below % 2 = 0 then below else below + 1

/-- The place of the first binary digit of a positive number that is not zero. -/
def firstPlace (x : Rat) : Int :=
  let place : Int := x.num.natAbs.log2 - x.den.log2
  if x < 2 ^ place then place - 1 else place

/-- The double nearest to `x`: it has 53 binary digits. -/
def nearest (x : Rat) : Rat :=
  if x = 0 then 0
  else
    let unit : Rat := 2 ^ (firstPlace x - 52)
    nearestWhole (x / unit) * unit

/-- The quotient of two numbers in double precision. -/
def quotient (x y : Rat) : Rat := nearest (nearest x / nearest y)

end Dpll.Double
