/-! Paths of files and directories: names separated by slashes. Empty names and single dots name
nothing of their own, so the last name of a path is found behind trailing ones. -/

namespace Dpll

/-- A path as it is written. -/
structure Path where
  text : String
deriving DecidableEq, Repr

namespace Path

instance : ToString Path := ⟨Path.text⟩

/-- The pieces between the slashes. -/
def pieces (p : Path) : List String :=
  (p.text.toList.splitOnP (· == '/')).map String.ofList

/-- Whether the path starts at the root of the system. -/
def isAbsolute (p : Path) : Bool := p.text.toList.head? == some '/'

/-- How many bytes a name may have. -/
def nameLimit : Nat := 255

/-- Whether a name is too long for a file or directory. -/
def isLongName (name : String) : Bool := nameLimit < name.utf8ByteSize

/-- How many bytes a path may have. -/
def limit : Nat := 4095

/-- Whether the path is too long to be looked up at all. -/
def isLong (p : Path) : Bool := limit < p.text.utf8ByteSize

/-- Whether a piece stays where it is. -/
def isStay (piece : String) : Bool := piece == "" || piece == "."

/-- The name of the file or directory itself. -/
def fileName? (p : Path) : Option String :=
  (p.pieces.filter fun piece => !isStay piece).getLast?.filter (· != "..")

/-- The part of a name after its last dot, unless nothing stands before that dot. -/
def extensionOf? (name : String) : Option String :=
  match name.toList.reverse.span (· != '.') with
  | (extension, _ :: _ :: _) => some (String.ofList extension.reverse)
  | _ => none

/-- The extension of the name. -/
def extension? (p : Path) : Option String := p.fileName?.bind extensionOf?

/-- The path of a name inside a directory. -/
def join (p : Path) (name : String) : Path :=
  if p.text.toList.getLast? == some '/' then ⟨p.text ++ name⟩ else ⟨p.text ++ "/" ++ name⟩

end Path

end Dpll
