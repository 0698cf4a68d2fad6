import Dpll.Fault
import Dpll.Path

/-! A tree of files and directories in memory. A location is the list of names on the way to it
from the root. A location below which something lies is a directory without being listed. Paths
are followed from a location, those that start with a slash from the root. -/

namespace Dpll

/-- The names on the way from the root. -/
abbrev Location := List String

/-- A file that holds nothing but passes on what is written, or gives what comes from elsewhere. -/
inductive Device where
  /-- Takes everything and keeps nothing. -/
  | null
  /-- Has no room for anything. -/
  | full
  /-- The standard streams of the program that uses it. -/
  | input
  | output
  | errors
deriving DecidableEq, Repr

/-- What is at a location. -/
inductive FileNode where
  | file (content : List UInt8)
  | directory
  | device (d : Device)
deriving DecidableEq, Repr

/-- Files and directories by location. -/
structure FileTree where
  nodes : List (Location × FileNode)
deriving DecidableEq, Repr

namespace FileTree

/-- The tree with nothing in it. -/
def empty : FileTree := ⟨[]⟩

/-- What is at a location, if anything is. -/
def node? (t : FileTree) (l : Location) : Option FileNode :=
  match t.nodes.lookup l with
  | some node => some node
  | none =>
    if l.isEmpty || t.nodes.any fun (k, _) => l.isPrefixOf k then some .directory else none

/-- Puts something at a location, in place of what was there. -/
def put (t : FileTree) (l : Location) (node : FileNode) : FileTree :=
  ⟨t.nodes.filter (fun (k, _) => k != l) ++ [(l, node)]⟩

/-- The names directly inside a location, each once. -/
def names (t : FileTree) (l : Location) : List String :=
  (t.nodes.filterMap fun (k, _) => if l.isPrefixOf k then k[l.length]? else none).eraseDups

/-- The files with their contents. -/
def files (t : FileTree) : List (Location × List UInt8) :=
  t.nodes.filterMap fun (l, node) =>
    match node with
    | .file content => some (l, content)
    | _ => none

/-! ### Paths -/

/-- Goes on from a location, which has to be a directory, by one piece of a path. What is there
need not exist yet. The root is above itself. -/
def step (t : FileTree) (l : Location) (piece : String) : Except Fault Location :=
  match t.node? l with
  | none => .error .notFound
  | some .directory =>
    if Path.isStay piece then .ok l
    else if piece = ".." then .ok l.dropLast
    else if Path.isLongName piece then .error .nameTooLong
    else .ok (l ++ [piece])
  | some _ => .error .notDirectory

/-- Follows pieces of a path, seen from a location. -/
def follow (t : FileTree) (here : Location) (p : Path) (pieces : List String) :
    Except Fault Location :=
  if p.isLong then .error .nameTooLong
  else pieces.foldlM t.step (if p.isAbsolute then [] else here)

/-- The location that a path leads to. -/
def locate (t : FileTree) (here : Location) (p : Path) : Except Fault Location :=
  t.follow here p p.pieces

/-- What is at the end of a path, and where that is. -/
def find (t : FileTree) (here : Location) (p : Path) : Except Fault (Location × FileNode) :=
  match t.locate here p with
  | .error fault => .error fault
  | .ok l =>
    match t.node? l with
    | none => .error .notFound
    | some node => .ok (l, node)

/-- Whether there is a directory at the end of a path. -/
def isDirectory (t : FileTree) (here : Location) (p : Path) : Bool :=
  match t.find here p with
  | .ok (_, .directory) => true
  | _ => false

/-- Where a file may be created or overwritten. A path that ends in a slash names a directory,
whether there is one or not. -/
def target (t : FileTree) (here : Location) (p : Path) : Except Fault Location :=
  let named := (p.pieces.reverse.dropWhile (· == "")).reverse
  if named.length = p.pieces.length then
    match t.locate here p with
    | .error fault => .error fault
    | .ok l => if t.node? l = some .directory then .error .isDirectory else .ok l
  else
    match t.follow here p (named.dropLast ++ ["."]) with
    | .error fault => .error fault
    | .ok _ => .error .isDirectory

/-- Creates an empty file, or empties the one that is there. A device stays what it is. -/
def create (t : FileTree) (here : Location) (p : Path) : Except Fault FileTree :=
  match t.target here p with
  | .error fault => .error fault
  | .ok l =>
    match t.node? l with
    | some (.device _) => .ok t
    | _ => .ok (t.put l (.file []))

/-! ### Building -/

/-- The directories and devices that every system has. -/
def system : FileTree :=
  ⟨["bin", "boot", "etc", "home", "lib", "media", "mnt", "opt", "proc", "root", "run", "sbin",
      "srv", "sys", "tmp", "usr", "var"].map (fun name => ([name], .directory)) ++
    [("null", .null), ("full", .full), ("stdin", .input), ("stdout", .output),
      ("stderr", Device.errors)].map fun (name, d) => (["dev", name], .device d)⟩

/-- Adds a directory with the given files and directories in it. -/
def withDirectory (t : FileTree) (l : Location) (files : List (Path × List UInt8))
    (directories : List Path) : FileTree :=
  let below (p : Path) : Location := l ++ p.pieces.filter fun piece => !Path.isStay piece
  ⟨t.nodes ++ (l, .directory) :: files.map (fun (p, content) => (below p, .file content)) ++
    directories.map fun p => (below p, .directory)⟩

end FileTree

end Dpll
