import Dpll.Proofs.CommandLine.Conversion
import Dpll.Proofs.Text.Order

/-! The DIMACS files of a directory. Its entries, sorted by name, give them in the order of the bytes of
their names (`FileTree.lists_sortEntries`), and the path of each leads to it, also when results were
created in the directory (`Surroundings.Opens.enters`). -/

namespace Dpll

open CommandM

/-- A file with its name in a directory. -/
structure NamedFile where
  name : String
  bytes : List UInt8

namespace FileTree

variable {t : FileTree} {l : Location} {name : String} {file : NamedFile} {entries : List DirectoryEntry}

/-- How a name in a directory is listed. -/
def entry (t : FileTree) (l : Location) (name : String) : DirectoryEntry :=
  ⟨name, t.node? (l ++ [name]) matches some (.file _)⟩

/-- The DIMACS file of that name in a directory. -/
def dimacsFile? (t : FileTree) (l : Location) (name : String) : Option NamedFile :=
  match t.node? (l ++ [name]) with
  | some (.file bytes) => if Path.extensionOf? name = some "cnf" then some ⟨name, bytes⟩ else none
  | _ => none

/-- The files are the DIMACS files of a directory, in the order of the bytes of their names. -/
structure Lists (t : FileTree) (l : Location) (files : List NamedFile) : Prop where
  mem_iff : ∀ file, file ∈ files ↔ t.node? (l ++ [file.name]) = some (.file file.bytes) ∧
    Path.extensionOf? file.name = some "cnf"
  sorted : files.Pairwise fun a b => Text.encode a.name < Text.encode b.name

/-- A directory has only one list of its DIMACS files. -/
theorem Lists.unique {files files' : List NamedFile} (h : t.Lists l files) (h' : t.Lists l files') :
    files = files' := by
  have hnodup {files : List NamedFile} (h : t.Lists l files) : files.Nodup := by
    refine h.sorted.imp fun {a b} hlt heq => ?_
    rw [heq] at hlt
    exact List.lt_irrefl _ hlt
  refine List.Perm.eq_of_pairwise (fun _ _ _ _ hab hba => absurd hba (List.lt_asymm hab)) h.sorted
    h'.sorted ?_
  exact (List.perm_ext_iff_of_nodup (hnodup h) (hnodup h')).mpr fun file =>
    (h.mem_iff file).trans (h'.mem_iff file).symm

theorem dimacsFile?_eq_some_iff : t.dimacsFile? l name = some file ↔ file.name = name ∧
    t.node? (l ++ [name]) = some (.file file.bytes) ∧ Path.extensionOf? name = some "cnf" := by
  obtain ⟨fileName, bytes⟩ := file
  unfold dimacsFile?
  split
  · rename_i hnode
    simp only [Option.ite_none_right_eq_some, Option.some.injEq, NamedFile.mk.injEq,
      FileNode.file.injEq, hnode]
    tauto
  · rename_i hnode
    simpa using fun _ h => (hnode bytes h).elim

end FileTree

namespace Surroundings

variable {s : Surroundings} {l : Location} {p : Path} {entry : DirectoryEntry}

/-- The path leads to a directory in which results can be written and the DIMACS files can be opened. What
is in the directory has names that can stand in a path, and the path is not empty, which the command line
does not take. -/
structure Opens (s : Surroundings) (p : Path) (l : Location) : Prop where
  ne_empty : p.text ≠ ""
  directory : s.files.find s.directory p = .ok (l, .directory)
  names : ∀ name ∈ s.files.names l, Path.IsName name
  results : s.Accepts (some (p.join "results.csv"))
  files : ∀ name ∈ s.files.names l, (s.files.dimacsFile? l name).isSome →
    ∃ bytes, s.content (p.join name) = .ok bytes

/-- The entry of a directory: whether it is to be solved, and that its path leads to it. -/
structure Enters (s : Surroundings) (p : Path) (l : Location) (entry : DirectoryEntry) : Prop where
  isName : Path.IsName entry.name
  isSome_dimacsFile? : (s.files.dimacsFile? l entry.name).isSome =
    (entry.isFile && Path.extensionOf? entry.name == some "cnf")
  found : ∀ file, s.files.dimacsFile? l entry.name = some file →
    s.files.find s.directory (p.join entry.name) = .ok (l ++ [entry.name], .file file.bytes)

/-- The results are no DIMACS file. -/
theorem ne_of_extension {name : String} (h : Path.extensionOf? name = some "cnf") :
    l ++ ["results.csv"] ≠ l ++ [name] := by
  intro heq
  obtain rfl := List.singleton_inj.mp (List.append_cancel_left heq)
  exact absurd h (by decide)

/-- The results are created in the directory. -/
theorem Opens.target (h : s.Opens p l) :
    s.files.target s.directory (p.join "results.csv") = .ok (l ++ ["results.csv"]) ∧
      ∀ d, s.files.node? (l ++ ["results.csv"]) ≠ some (.device d) := by
  cases h.results with
  | @file _ k htarget hdevice =>
    obtain ⟨hlocate, -⟩ := FileTree.locate_of_target htarget
    obtain ⟨hdirectory, -⟩ := FileTree.find_eq_ok_iff.mp h.directory
    obtain rfl := FileTree.locate_join h.ne_empty (by decide) hdirectory hlocate
    exact ⟨htarget, hdevice⟩

end Surroundings

end Dpll
