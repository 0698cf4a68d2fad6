import Dpll.FileTree
import Dpll.Host
import Dpll.Text.Lines

/-! Surroundings kept in memory: a file tree with the directory that a program works in, an input
that is consumed, and all that was printed and logged. Time stands still in them, and no memory
is used. -/

namespace Dpll

/-- What a program sees of the world and leaves in it. -/
structure Surroundings where
  files : FileTree
  /-- Where relative paths start. -/
  directory : Location
  /-- What is left of the standard input. -/
  input : List UInt8
  verbosity : Verbosity
  /-- What was written to the standard output. -/
  output : String
  /-- What was written to the standard error stream, where the log goes. -/
  errors : String

namespace Surroundings

/-- The directory that programs are started in. -/
def workplace : Location := ["tmp", "work"]

/-- Surroundings before a program runs, with the given files and directories around it. -/
def start (files : List (Path × List UInt8)) (directories : List Path) (input : List UInt8)
    (verbosity : Verbosity) : Surroundings where
  files := FileTree.system.withDirectory workplace files directories
  directory := workplace
  input
  verbosity
  output := ""
  errors := ""

/-- The first line of the bytes with its ending, and the rest. -/
def splitLine (bytes : List UInt8) : List UInt8 × List UInt8 :=
  let (line, rest) := bytes.span (· != 0x0A)
  (line ++ rest.take 1, rest.drop 1)

/-- Reads what a device gives until it ends; those to write to give nothing. -/
def readDevice : Device → StateM Surroundings (List UInt8)
  | .input => fun s => (s.input, { s with input := [] })
  | _ => pure []

/-- Writes to a device. -/
def writeDevice (text : String) : Device → StateM Surroundings (Except Fault Unit)
  | .null | .input => pure (.ok ())
  | .full => pure (.error .noSpace)
  | .output => fun s => (.ok (), { s with output := s.output ++ text })
  | .errors => fun s => (.ok (), { s with errors := s.errors ++ text })

instance : Host (StateM Surroundings) where
  isDirectory p := fun s => (s.files.isDirectory s.directory p, s)
  entries p := fun s =>
    match s.files.locate s.directory p with
    | .error _ => ([], s)
    | .ok l =>
      ((s.files.names l).map fun name =>
        { name, isFile := s.files.node? (l ++ [name]) matches some (.file _) }, s)
  readFile p := fun s =>
    match s.files.find s.directory p with
    | .error fault => (.error fault, s)
    | .ok (_, .directory) => (.error .isDirectory, s)
    | .ok (_, .file content) => (.ok content, s)
    | .ok (_, .device d) => (Except.ok <$> readDevice d).run s
  createFile p := fun s =>
    match s.files.create s.directory p with
    | .error fault => (.error fault, s)
    | .ok files => (.ok (), { s with files })
  appendFile p text := fun s =>
    match s.files.find s.directory p with
    | .error fault => (.error fault, s)
    | .ok (_, .directory) => (.error .isDirectory, s)
    | .ok (l, .file content) =>
      (.ok (), { s with files := s.files.put l (.file (content ++ Text.encode text)) })
    | .ok (_, .device d) => (writeDevice text d).run s
  readInput := fun s => (.ok s.input, { s with input := [] })
  readInputLine := fun s =>
    let (line, rest) := splitLine s.input
    (.ok line, { s with input := rest })
  print text := fun s => ((), { s with output := s.output ++ text })
  log entry := fun s =>
    ((), if s.verbosity.admits entry.severity then { s with errors := s.errors ++ entry.text }
      else s)
  admits severity := fun s => (s.verbosity.admits severity, s)
  clock := fun s => (0, s)
  memory := fun s => (some ⟨0, 0⟩, s)

end Surroundings

end Dpll
