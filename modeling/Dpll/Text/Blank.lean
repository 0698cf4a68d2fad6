/-! The characters with the Unicode property `White_Space`. Vertical tab, form feed, next line and
the spaces of other scripts are among them; the zero-width space and the byte order mark are
not. -/

namespace Dpll.Text

/-- The ranges of code points with the property, ends included. -/
def blankRanges : List (Nat × Nat) :=
  [(0x09, 0x0D), (0x20, 0x20), (0x85, 0x85), (0xA0, 0xA0), (0x1680, 0x1680), (0x2000, 0x200A),
    (0x2028, 0x2029), (0x202F, 0x202F), (0x205F, 0x205F), (0x3000, 0x3000)]

/-- Whether a character separates words. -/
def isBlank (c : Char) : Bool := blankRanges.any fun (low, high) => low ≤ c.toNat && c.toNat ≤ high

end Dpll.Text
