import Dpll.Text.Words

/-! Tokens of formulas: every parenthesis by itself, and the longest runs of other characters
that are not blank. -/

namespace Dpll

/-- A token of a formula. -/
inductive NnfToken where
  | leftParen
  | rightParen
  | word (text : String)
deriving DecidableEq, Repr

namespace NnfToken

/-- The text of a token. -/
def text : NnfToken → String
  | leftParen => "("
  | rightParen => ")"
  | word text => text

/-- The token of a run of characters that belong together, none if there is no character. -/
def ofRun (cs : List Char) : List NnfToken :=
  if cs.isEmpty then [] else [word (String.ofList cs)]

/-- The tokens of a text, `run` being the characters of the current run, last one first. -/
def scan (run : List Char) : List Char → List NnfToken
  | [] => ofRun run.reverse
  | c :: cs =>
    if c = '(' then ofRun run.reverse ++ leftParen :: scan [] cs
    else if c = ')' then ofRun run.reverse ++ rightParen :: scan [] cs
    else if Text.isBlank c then ofRun run.reverse ++ scan [] cs
    else scan (c :: run) cs

/-- The tokens of a text, in order. -/
def ofText (text : String) : List NnfToken := scan [] text.toList

end NnfToken

end Dpll
