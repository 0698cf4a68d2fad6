import Dpll.Dimacs.Reader
import Dpll.Nnf.Reader
import Dpll.Path

/-! Why a command fails. -/

namespace Dpll

/-- A cause that ends a command. -/
inductive Failure where
  | dimacs (e : DimacsError)
  | formula (e : NnfError)
  | inaccessible (fault : Fault)
  /-- The results of a directory cannot be written. -/
  | unwrittenResults (fault : Fault)
  | unsupportedInput (p : Path)
  | notDirectory (p : Path)
  /-- A model was found that is none. -/
  | verificationFailed
  /-- The search did not end within its bound, or the formula is out of range. -/
  | unsearchable
deriving DecidableEq, Repr

/-- The text of a failure. -/
def Failure.message : Failure → String
  | dimacs e => e.message
  | formula e => "invalid formula: " ++ e.message
  | inaccessible fault => "I/O error: " ++ fault.message
  | unwrittenResults fault => "failed to write results: " ++ fault.message
  | unsupportedInput p => s!"unsupported input {p}: expected a .cnf or .sat file"
  | notDirectory p => s!"{p} is not a directory"
  | verificationFailed => "the model does not satisfy the formula"
  | unsearchable => "the formula cannot be searched"

end Dpll
