/-! Failures of reading and writing that do not depend on what is read or written. -/

namespace Dpll

/-- Why a stream, file or directory could not be read or written. -/
inductive Fault where
  /-- The bytes are not UTF-8 where text is wanted. -/
  | invalidUtf8
  | notFound
  | isDirectory
  | notDirectory
  | nameTooLong
  /-- There is no room for what is written. -/
  | noSpace
  /-- Any other reason, in the words of the system. -/
  | other (reason : String)
deriving DecidableEq, Repr

/-- The text of a failure. -/
def Fault.message : Fault → String
  | invalidUtf8 => "stream did not contain valid UTF-8"
  | notFound => "No such file or directory (os error 2)"
  | isDirectory => "Is a directory (os error 21)"
  | notDirectory => "Not a directory (os error 20)"
  | nameTooLong => "File name too long (os error 36)"
  | noSpace => "No space left on device (os error 28)"
  | other reason => reason

end Dpll
