import Dpll.Proofs.Dimacs.Grammar
import Dpll.Proofs.Dimacs.Writer
import Dpll.Proofs.Nnf
import Dpll.Proofs.Nnf.Grammar
import Dpll.Proofs.Tseitin.Labels

/-! Where formulas come from: DIMACS texts, lists of numbers, formulas in negation normal form, and
clauses that are checked against a table. Whatever its source, a formula is in range
(`Cnf.Sourced.inRange`) and its names are without line feeds (`Cnf.Sourced.namesInLine`). -/

namespace Dpll

/-- A literal has the variable that its number names. -/
theorem Clause.exists_of_mem_ofNumbers {ns : List Int32} {l : Literal} (h : l ∈ ofNumbers ns) :
    ∃ n ∈ ns, l.var.toNat + 1 = n.toInt.natAbs := by
  obtain ⟨n, hn, hl⟩ := List.mem_filterMap.mp h
  exact ⟨n, hn, (Literal.of_ofNumber? hl).1⟩

theorem DimacsDocument.inRange_toCnf {bytes : List UInt8} {d : DimacsDocument}
    (h : read bytes = .ok d) : d.toCnf.InRange := by
  obtain ⟨-, header, body, ns, -, hdoc⟩ := read_eq_ok_iff.mp h
  intro c hc l hl
  rw [toCnf, hdoc.clauses_eq] at hc
  obtain ⟨run, hrun, rfl⟩ := List.mem_map.mp hc
  obtain ⟨n, hn, hvar⟩ := Clause.exists_of_mem_ofNumbers hl
  have hle := hdoc.numerals.natAbs_le n (mem_of_mem_runs hrun hn).1
  rw [Cnf.numVars, toCnf, VariableTable.size_numbered]
  omega

namespace Cnf

variable {f : Cnf} {table : VariableTable} {clauses : List Clause}

theorem inRange_ofNumbers (clauses : List (List Int32)) : (ofNumbers clauses).InRange := by
  intro c hc l hl
  obtain ⟨ns, hns, rfl⟩ := List.mem_map.mp hc
  obtain ⟨n, hn, hvar⟩ := Clause.exists_of_mem_ofNumbers hl
  have hmem : n.toInt.natAbs ∈ clauses.flatten.map fun n => n.toInt.natAbs :=
    List.mem_map_of_mem (List.mem_flatten.mpr ⟨ns, hns, hn⟩)
  have hle := List.le_max?_getD_of_mem (k := 0) hmem
  rw [numVars, ofNumbers, VariableTable.size_numbered, List.foldl_max]
  omega

theorem inRange_of_firstUnknown? (h : firstUnknown? table clauses = none) :
    InRange ⟨table, clauses⟩ := by
  intro c hc l hl
  obtain ⟨i, hi, rfl⟩ := List.mem_iff_getElem.mp hc
  have hmem : (clauses[i], i) ∈ clauses.zipIdx := List.mk_mem_zipIdx_iff_getElem?.mpr (by simp [hi])
  have hnone := List.findSome?_eq_none_iff.mp h _ hmem
  rw [Option.map_eq_none_iff, List.find?_eq_none] at hnone
  have hlt : l.var.toNat < table.size := by simpa [VariableTable.contains] using hnone l hl
  exact hlt

theorem ofTable?_eq_ok_iff : ofTable? table clauses = .ok f ↔
    firstUnknown? table clauses = none ∧ f = ⟨table, clauses⟩ := by
  rw [ofTable?]
  cases firstUnknown? table clauses <;> simp [eq_comm]

end Cnf

theorem VariableTable.namesInLine_numbered (n : Nat) : (numbered n).NamesInLine := by
  intro name hname
  rw [names_numbered] at hname
  obtain ⟨i, -, hi⟩ := List.mem_map.mp hname
  obtain rfl := Option.some.inj hi
  exact (Text.isWord_toString_nat (i + 1)).lineFeed_notMem

/-- The names of an encoded formula are words of its text. -/
theorem NnfTree.isBlank_of_mem_names {text : String} {tree : NnfTree} {name : String} {c : Char}
    (h : read text = .ok tree) (hname : some name ∈ tree.table.names.toList)
    (hc : c ∈ name.toList) : Text.isBlank c = false := by
  obtain ⟨f, hf, htree⟩ := read_eq_ok.mp h
  rw [(ofNames_eq_iff.mp htree).1] at hname
  obtain ⟨leaf, hleaf, hsome⟩ := List.mem_map.mp hname
  obtain rfl := Option.some.inj hsome
  have htoken := Nnf.word_mem_tokens (List.mem_eraseDups.mp hleaf)
  rw [← Nnf.spelled_iff.mp hf] at htoken
  exact NnfToken.isBlank_of_word_mem_ofText htoken hc

namespace Cnf

variable {f : Cnf}

/-- The formula comes from one of the sources there are. -/
inductive Sourced : Cnf → Prop where
  /-- It is read from DIMACS text. -/
  | read {bytes : List UInt8} {d : DimacsDocument} (h : DimacsDocument.read bytes = .ok d) :
      Sourced d.toCnf
  /-- It is a list of clauses in numbers. -/
  | ofNumbers (clauses : List (List Int32)) : Sourced (.ofNumbers clauses)
  /-- It encodes a formula in negation normal form. -/
  | toClauses {text : String} {tree : NnfTree} (h : NnfTree.read text = .ok tree) (e : Encoding) :
      Sourced (tree.toClauses e).cnf
  /-- Its clauses were checked against a table. -/
  | ofTable {table : VariableTable} {clauses : List Clause} {f : Cnf}
      (h : ofTable? table clauses = .ok f) (hnames : table.NamesInLine) : Sourced f

/-- With more variables than literals have room for, no literal is out of range. -/
theorem inRange_of_le (h : 2 ^ 31 ≤ f.numVars) : f.InRange :=
  fun _ _ l _ => Nat.lt_of_lt_of_le l.toNat_var_lt h

theorem Sourced.inRange (h : f.Sourced) : f.InRange := by
  cases h with
  | read h => exact DimacsDocument.inRange_toCnf h
  | ofNumbers clauses => exact inRange_ofNumbers clauses
  | @toClauses _ tree h e =>
    rcases Nat.le_total (2 ^ 31) (tree.toClauses e).cnf.numVars with hsize | hsize
    · exact inRange_of_le hsize
    · have hle := NnfTree.size_le_numVars tree e
      exact NnfTree.inRange_toClauses (NnfTree.inRange_read h (by omega)) hsize
  | ofTable h =>
    obtain ⟨hnone, rfl⟩ := ofTable?_eq_ok_iff.mp h
    exact inRange_of_firstUnknown? hnone

theorem Sourced.namesInLine (h : f.Sourced) : f.table.NamesInLine := by
  cases h with
  | read | ofNumbers => exact VariableTable.namesInLine_numbered _
  | toClauses h e =>
    intro name hname hc
    rw [NnfTree.names_toClauses, List.mem_append] at hname
    have htree := hname.resolve_right (by simp)
    exact absurd (NnfTree.isBlank_of_mem_names h htree hc) (by decide)
  | ofTable h hnames =>
    obtain ⟨-, rfl⟩ := ofTable?_eq_ok_iff.mp h
    exact hnames

end Cnf

end Dpll
