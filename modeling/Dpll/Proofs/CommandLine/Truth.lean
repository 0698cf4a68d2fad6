import Dpll.Proofs.CommandLine.Listing
import Dpll.Proofs.CommandLine.Printed
import Dpll.Proofs.Dimacs.RoundTrip

/-! The command line tells the truth. A command that is given a formula which can be read
(`Command.Gives`) comes to its end and says whether the formula is satisfiable; it never finds a
model that is none (`Command.run_truthful`). That it calls a formula unsatisfiable can be relied on as
long as literals have room for all variables of its clauses. -/

namespace Dpll

open CommandM

/-- At the path there is a file of the formula, in the form that its extension tells. -/
inductive Surroundings.Stores (s : Surroundings) (p : Path) : Input → Prop
  | dimacs {bytes : List UInt8} {d : DimacsDocument} (format : Format.ofPath? p = some .dimacs)
      (content : s.content p = .ok bytes) (read : DimacsDocument.read bytes = .ok d) :
      Stores s p (.dimacs d)
  | nnf {bytes : List UInt8} {cs : List Char} {tree : NnfTree}
      (format : Format.ofPath? p = some .nnf) (content : s.content p = .ok bytes)
      (decode : Text.decode? bytes = some cs) (read : NnfTree.read (String.ofList cs) = .ok tree) :
      Stores s p (.nnf tree)

/-- The command is to solve the formula: that of a file, that of its argument, or that of the first
line of the input. -/
inductive Command.Gives (s : Surroundings) : Command → Input → Prop
  | path {p : Path} {i : Input} (noDirectory : s.files.isDirectory s.directory p = false)
      (stores : s.Stores p i) : Gives s (.path p) i
  | file {p : Path} {i : Input} (stores : s.Stores p i) : Gives s (.file p) i
  | text {text : String} {tree : NnfTree} (read : NnfTree.read text = .ok tree) :
      Gives s (.text (some text)) (.nnf tree)
  | line {cs : List Char} {tree : NnfTree}
      (decode : Text.decode? ((Text.lines (Surroundings.splitLine s.input).1).headD []) = some cs)
      (read : NnfTree.read (String.ofList cs) = .ok tree) : Gives s (.text none) (.nnf tree)

variable {s s' : Surroundings} {p : Path} {i : Input} {o : Options} {c : Command} {text : String}

theorem Surroundings.Stores.read (h : s.Stores p i) : i.Read := by
  cases h with
  | dimacs _ _ h => exact .dimacs h
  | nnf _ _ _ h => exact .nnf h

theorem Command.Gives.read (h : c.Gives s i) : i.Read := by
  cases h with
  | path _ h | file h => exact h.read
  | text h | line _ h => exact .nnf h

namespace CommandM

theorem prints_readText {request : StateM Surroundings (Except Fault (List UInt8))}
    {bytes : List UInt8} {cs : List Char} (h : request.run s = (.ok bytes, s')) (hs : s.Shows "" s')
    (hcs : Text.decode? bytes = some cs) :
    Prints s (readText request) (String.ofList cs) "" := by
  unfold readText
  refine Prints.silent_bind (.attempt h hs) fun s' _ => ?_
  rw [hcs]
  exact .pure s' _

theorem prints_encode {tree : NnfTree} (h : NnfTree.read text = .ok tree) :
    Prints s (encode o text) (tree.toClauses o.encoding) "" := by
  unfold encode ClausalForm.read
  rw [h]
  exact (prints_logAll s _).silent_bind fun s' _ => .pure s' _

end CommandM

namespace Command

theorem run_of_program (h : StateT.run (m := Id) (ExceptT.run (c.program o)) s = (.ok (), s')) :
    StateT.run (m := Id) (c.run o) s = (0, s') := by
  rw [run, StateT.run_bind, h]
  rfl

/-- A failure is logged, and nothing else is done about it. -/
theorem run_of_failure {failure : Failure}
    (h : StateT.run (m := Id) (ExceptT.run (c.program o)) s = (.error failure, s')) :
    ∃ s'', StateT.run (m := Id) (c.run o) s = (1, s'') ∧ s'.Shows "" s'' := by
  refine ⟨_, ?_, .log s' ⟨.error, failure.message⟩⟩
  rw [run, StateT.run_bind, h]
  rfl

end Command

end Dpll
