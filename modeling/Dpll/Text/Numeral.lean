/-! Decimal numerals of bounded size: an optional sign and at least one ASCII digit. A minus
sign is part of signed numerals only. -/

namespace Dpll.Text

/-- The number that a non-empty run of digits stands for. -/
def natural? (cs : List Char) : Option Nat :=
  if !cs.isEmpty && cs.all Char.isDigit then some (Nat.ofDigitChars 10 cs 0) else none

/-- The number below `bound` that an unsigned numeral stands for. -/
def unsigned? (bound : Nat) (cs : List Char) : Option Nat :=
  let digits :=
    match cs with
    | '+' :: rest => rest
    | _ => cs
  (natural? digits).filter (· < bound)

/-- How many numbers of 32 bits have no minus sign. -/
def signBound : Nat := 0x80000000

/-- The number of 32 bits that a signed numeral stands for. -/
def int32? (cs : List Char) : Option Int32 :=
  match cs with
  | '-' :: digits =>
    (natural? digits).bind fun n =>
      if n ≤ signBound then some (Int32.ofInt (-(n : Int))) else none
  | _ => (unsigned? signBound cs).map fun n => Int32.ofInt n

end Dpll.Text
