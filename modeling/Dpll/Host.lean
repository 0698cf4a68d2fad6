import Dpll.Fault
import Dpll.Log
import Dpll.Path

/-! What a program may ask of its surroundings. Programs are written for any host, so that they
run on the system and on surroundings kept in memory alike. -/

namespace Dpll

/-- An entry of a directory. -/
structure DirectoryEntry where
  name : String
  isFile : Bool
deriving DecidableEq, Repr

/-- The memory that a program uses, in bytes. -/
structure MemoryUse where
  allocated : Nat
  resident : Nat

/-- The requests that a program in the monad `μ` may make. -/
class Host (μ : Type → Type) where
  /-- Whether there is a directory at a path. -/
  isDirectory (p : Path) : μ Bool
  /-- The entries of a directory in any order; none if it cannot be listed. -/
  entries (p : Path) : μ (List DirectoryEntry)
  readFile (p : Path) : μ (Except Fault (List UInt8))
  /-- Creates an empty file or empties the one that is there. -/
  createFile (p : Path) : μ (Except Fault Unit)
  /-- Adds text at the end of a file. -/
  appendFile (p : Path) (text : String) : μ (Except Fault Unit)
  /-- All that is left of the standard input. -/
  readInput : μ (Except Fault (List UInt8))
  /-- The next line of the standard input with its ending; nothing at the end. -/
  readInputLine : μ (Except Fault (List UInt8))
  /-- Writes to the standard output. -/
  print (text : String) : μ Unit
  /-- Logs an entry if its severity is admitted. -/
  log (entry : LogEntry) : μ Unit
  /-- Whether entries of a severity are logged. -/
  admits (s : Severity) : μ Bool
  /-- A clock that never goes back, in nanoseconds. -/
  clock : μ Nat
  /-- The memory in use, if it is known. -/
  memory : μ (Option MemoryUse)

end Dpll
