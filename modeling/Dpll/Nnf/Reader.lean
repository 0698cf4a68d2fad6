import Dpll.Nnf.Formula
import Dpll.Nnf.Token

/-! Reading formulas in prefix notation:
`F := NAME | ( and F F ) | ( or F F ) | ( not NAME )`.
The reader takes one token after the other. Between two tokens it knows what is due next and
which operators are still waiting for a part of theirs; that is all a refusal depends on, so a
formula is refused at the first token after which nothing could complete it. -/

namespace Dpll

/-- Why a text is not a formula. Positions count tokens from zero. -/
inductive NnfError where
  | unexpectedEnd
  | unexpectedToken (position : Nat) (expected : String) (found : String)
  | unsupportedOperator (position : Nat) (operator : String)
  | trailingTokens (count : Nat)
deriving DecidableEq, Repr

/-- The text of an error. -/
def NnfError.message : NnfError → String
  | unexpectedEnd => "formula ended unexpectedly"
  | unexpectedToken position expected found =>
    s!"token {position}: expected {expected}, found `{found}`"
  | unsupportedOperator position operator =>
    s!"token {position}: unsupported operator `{operator}`"
  | trailingTokens count => s!"formula parsed but {count} tokens remain"

/-- The operators of two formulas. -/
inductive Connective where
  | and
  | or
deriving DecidableEq, Repr

/-- Joins two formulas. -/
def Connective.join : Connective → Nnf α → Nnf α → Nnf α
  | and => .and
  | or => .or

/-- An operator that waits for one of its formulas. -/
inductive Pending where
  | left (op : Connective)
  | right (op : Connective) (left : Nnf String)

/-- What is due next, and the operators that wait for a part of theirs, innermost first. -/
inductive NnfState where
  /-- A formula is due. -/
  | formula (pending : List Pending)
  /-- An operator is due after an opening parenthesis. -/
  | operator (pending : List Pending)
  /-- The variable of a negation is due. -/
  | negated (pending : List Pending)
  /-- The closing parenthesis of a formula is due. -/
  | closing (formula : Nnf String) (pending : List Pending)

/-- How far a token has brought the reader. -/
inductive NnfProgress where
  /-- More tokens are due. -/
  | due (state : NnfState)
  /-- The formula is complete. -/
  | complete (formula : Nnf String)

/-- Hands a formula to the innermost operator that waits. -/
def NnfProgress.supply (f : Nnf String) : List Pending → NnfProgress
  | [] => .complete f
  | .left op :: pending => .due (.formula (.right op f :: pending))
  | .right op l :: pending => .due (.closing (op.join l f) pending)

namespace NnfState

/-- Takes in the token at a position. -/
def step (position : Nat) (s : NnfState) (token : NnfToken) : Except NnfError NnfProgress :=
  match s, token with
  | formula pending, .leftParen => .ok (.due (operator pending))
  | formula _, .rightParen => .error (.unexpectedToken position "a formula" token.text)
  | formula pending, .word name => .ok (.supply (.var name) pending)
  | operator pending, .word "and" => .ok (.due (formula (.left .and :: pending)))
  | operator pending, .word "or" => .ok (.due (formula (.left .or :: pending)))
  | operator pending, .word "not" => .ok (.due (negated pending))
  | operator _, _ => .error (.unsupportedOperator position token.text)
  | negated pending, .word name => .ok (.due (closing (.neg name) pending))
  | negated _, _ => .error (.unexpectedToken position "a variable" token.text)
  | closing f pending, .rightParen => .ok (.supply f pending)
  | closing _ _, _ => .error (.unexpectedToken position "`)`" token.text)

/-- Takes in the tokens from a position on. -/
def run (position : Nat) (s : NnfState) : List NnfToken → Except NnfError (Nnf String)
  | [] => .error .unexpectedEnd
  | token :: tokens =>
    match s.step position token with
    | .error e => .error e
    | .ok (.due s) => run (position + 1) s tokens
    | .ok (.complete f) =>
      if tokens.isEmpty then .ok f else .error (.trailingTokens tokens.length)

end NnfState

/-- The formula that the tokens spell. -/
def Nnf.ofTokens (tokens : List NnfToken) : Except NnfError (Nnf String) :=
  NnfState.run 0 (.formula []) tokens

/-- Reads a formula and numbers its variables. -/
def NnfTree.read (text : String) : Except NnfError NnfTree :=
  match Nnf.ofTokens (NnfToken.ofText text) with
  | .error e => .error e
  | .ok f => .ok (.ofNames f)

end Dpll
