/-! Lines of a byte sequence. A line ends at a line feed, and a carriage return directly before
it belongs to the ending; bytes after the last line feed are a line of their own. Each line is
decoded by itself, so a line that is not UTF-8 leaves the others readable. -/

namespace Dpll.Text

/-- Drops a carriage return at the end. -/
def dropReturn (line : List UInt8) : List UInt8 :=
  if line.getLast? = some 0x0D then line.dropLast else line

/-- The lines of a byte sequence, without their endings. -/
def lines (bytes : List UInt8) : List (List UInt8) :=
  let pieces := bytes.splitOnP (· == 0x0A)
  pieces.dropLast.map dropReturn ++ (pieces.getLast?.toList.filter fun piece => !piece.isEmpty)

/-- The characters that the bytes encode in UTF-8. -/
def decode? (bytes : List UInt8) : Option (List Char) :=
  (String.fromUTF8? ⟨bytes.toArray⟩).map String.toList

/-- The bytes of a text in UTF-8. -/
def encode (text : String) : List UInt8 := text.toByteArray.toList

end Dpll.Text
