/-! Fields of comma-separated records. A field that holds a comma, a quote or a line ending is
quoted, and a quote inside quotes is written twice. -/

namespace Dpll.Text

/-- Whether a character forces quotes around its field. -/
def isSpecial (c : Char) : Bool := c == ',' || c == '"' || c == '\r' || c == '\n'

/-- Every quote written twice. -/
def doubleQuotes (cs : List Char) : List Char :=
  cs.flatMap fun c => if c == '"' then ['"', '"'] else [c]

/-- A field as it is written. -/
def field (text : String) : String :=
  if text.toList.any isSpecial then
    String.ofList ('"' :: doubleQuotes text.toList ++ ['"'])
  else text

/-- A record as it is written, with its line ending. -/
def fieldLine (fields : List String) : String := ",".intercalate (fields.map field) ++ "\n"

end Dpll.Text
