import Dpll.Cnf
import Dpll.Fault
import Dpll.Text.Lines
import Dpll.Text.Numeral
import Dpll.Text.Words

/-! Reading DIMACS text. Blank lines and lines that start with `c` are skipped, a line that
starts with `%` ends the data, and one header line precedes all clauses. Clauses are numerals
ended by zeros, wherever the lines break. Lines are numbered from one, and reading stops at the
first line that cannot be part of a readable text. -/

namespace Dpll

/-- Why a text is not DIMACS. -/
inductive DimacsError where
  | unreadable (fault : Fault)
  | missingHeader
  | clauseBeforeHeader (line : Nat)
  | malformedHeader (line : Nat) (content : String)
  | duplicateHeader (line : Nat)
  | invalidLiteral (line : Nat) (token : String)
  | variableOutOfRange (line : Nat) (literal : Int32) (numVars : Nat)
  | unterminatedClause
deriving DecidableEq, Repr

/-- The text of an error. -/
def DimacsError.message : DimacsError → String
  | unreadable fault => "failed to read DIMACS input: " ++ fault.message
  | missingHeader => "missing `p cnf` header"
  | clauseBeforeHeader line => s!"line {line}: clause found before the `p cnf` header"
  | malformedHeader line content => s!"line {line}: malformed header `{content}`"
  | duplicateHeader line => s!"line {line}: second `p cnf` header"
  | invalidLiteral line token => s!"line {line}: `{token}` is not a literal"
  | variableOutOfRange line literal numVars =>
    s!"line {line}: literal {literal} is outside the {numVars} declared variables"
  | unterminatedClause => "last clause is not terminated by 0"

/-- What a DIMACS text says. -/
structure DimacsDocument where
  numVars : Nat
  /-- The number of clauses that the header announces. -/
  declared : Nat
  clauses : List Clause
deriving DecidableEq, Repr

/-- The formula of a document; its variables are named by their numbers. -/
def DimacsDocument.toCnf (d : DimacsDocument) : Cnf := ⟨.numbered d.numVars, d.clauses⟩

/-- What has been read so far, the newest clause and literal first. -/
structure DimacsReader where
  /-- The numbers of variables and clauses in the header. -/
  header : Option (Nat × Nat)
  clauses : List Clause
  current : List Literal

namespace DimacsReader

/-- Nothing has been read. -/
def start : DimacsReader := ⟨none, [], []⟩

/-- The two numbers of a header line. -/
def header? (line : List Char) : Option (Nat × Nat) :=
  match Text.words line with
  | [p, cnf, vars, clauses] =>
    if p = ['p'] ∧ cnf = ['c', 'n', 'f'] then
      match Text.unsigned? UInt64.size vars, Text.unsigned? UInt64.size clauses with
      | some v, some k => some (v, k)
      | _, _ => none
    else none
  | _ => none

/-- Takes in the number of a literal, or the zero that ends a clause. -/
def number (r : DimacsReader) (n : Int32) : DimacsReader :=
  match Literal.ofNumber? n with
  | none => { r with clauses := r.current.reverse :: r.clauses, current := [] }
  | some l => { r with current := l :: r.current }

/-- Takes in the words of a clause line over `numVars` variables. -/
def tokens (line numVars : Nat) : DimacsReader → List (List Char) → Except DimacsError DimacsReader
  | r, [] => .ok r
  | r, token :: rest =>
    match Text.int32? token with
    | none => .error (.invalidLiteral line (String.ofList token))
    | some n =>
      if numVars < n.toInt.natAbs then .error (.variableOutOfRange line n numVars)
      else tokens line numVars (r.number n) rest

/-- Takes in a line that is neither blank nor a comment nor the end of the data. -/
def content (r : DimacsReader) (line : Nat) (text : List Char) :
    Except DimacsError DimacsReader :=
  match text.head?, r.header with
  | some 'p', some _ => .error (.duplicateHeader line)
  | some 'p', none =>
    match header? text with
    | none => .error (.malformedHeader line (String.ofList text))
    | some header => .ok { r with header := some header }
  | _, none => .error (.clauseBeforeHeader line)
  | _, some (numVars, _) => tokens line numVars r (Text.words text)

/-- Takes in the lines from the given number on. -/
def readLines (r : DimacsReader) (line : Nat) :
    List (List UInt8) → Except DimacsError DimacsReader
  | [] => .ok r
  | bytes :: rest =>
    match Text.decode? bytes with
    | none => .error (.unreadable .invalidUtf8)
    | some chars =>
      let text := Text.trim chars
      match text.head? with
      | some '%' => .ok r
      | none => readLines r (line + 1) rest
      | some 'c' => readLines r (line + 1) rest
      | some _ =>
        match r.content line text with
        | .error e => .error e
        | .ok r => readLines r (line + 1) rest

/-- The document, once all lines are read. -/
def finish (r : DimacsReader) : Except DimacsError DimacsDocument :=
  if !r.current.isEmpty then .error .unterminatedClause
  else
    match r.header with
    | none => .error .missingHeader
    | some (numVars, declared) => .ok ⟨numVars, declared, r.clauses.reverse⟩

end DimacsReader

/-- Reads a DIMACS text. -/
def DimacsDocument.read (bytes : List UInt8) : Except DimacsError DimacsDocument :=
  match DimacsReader.start.readLines 1 (Text.lines bytes) with
  | .error e => .error e
  | .ok r => r.finish

end Dpll
