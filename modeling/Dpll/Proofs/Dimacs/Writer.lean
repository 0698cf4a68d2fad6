import Dpll.Dimacs.Writer
import Dpll.Proofs.Text.Numeral

/-! The lines of DIMACS text that is written. Comment lines start with `c` and stay in one line as
long as the names do (`Cnf.commentLines_spec`). The other lines are words with single spaces between
them: those of the header, and the printed numbers of a clause. -/

namespace Dpll

/-- No name has a line feed. -/
def VariableTable.NamesInLine (t : VariableTable) : Prop :=
  ∀ name, some name ∈ t.names.toList → '\n' ∉ name.toList

namespace Clause

variable {c : Clause} {x : Char}

/-- The numbers of the literals and the zero after them. -/
def numbers (c : Clause) : List Int32 := c.map Literal.number ++ [0]

/-- The numbers as they are printed. -/
def numerals (c : Clause) : List (List Char) := c.numbers.map fun n => (toString n.toInt).toList

theorem isWord_of_mem_numerals {word : List Char} (h : word ∈ c.numerals) : Text.IsWord word := by
  obtain ⟨n, -, rfl⟩ := List.mem_map.mp h
  exact Text.isWord_toString n.toInt

theorem toList_toLine (c : Clause) : c.toLine.toList = [' '].intercalate c.numerals := by
  rw [toLine, String.toList_intercalate, numerals, numbers, List.map_append, List.map_append,
    List.map_map, List.map_map]
  rfl

theorem words_toLine (c : Clause) : Text.words c.toLine.toList = c.numerals := by
  rw [toList_toLine, Text.words_intercalate fun _ => isWord_of_mem_numerals]

/-- A clause line starts with a number. -/
theorem lead_toLine_ne (c : Clause) (hx : Text.isNumeric x = false) :
    Text.lead c.toLine.toList ≠ some x := by
  intro h
  rw [Text.lead, words_toLine] at h
  obtain ⟨word, hword, hmem⟩ := List.mem_flatten.mp (List.mem_of_head? h)
  obtain ⟨n, -, rfl⟩ := List.mem_map.mp hword
  rw [Text.isNumeric_of_mem_toString hmem] at hx
  cases hx

theorem lead_toLine_ne_none (c : Clause) : Text.lead c.toLine.toList ≠ none := by
  rw [Text.lead, words_toLine, ne_eq, List.head?_eq_none_iff, List.flatten_eq_nil_iff]
  intro h
  have hzero : (0 : Int32) ∈ c.numbers := List.mem_append_right _ (List.mem_singleton_self 0)
  have hword := List.mem_map_of_mem (f := fun n => (toString n.toInt).toList) hzero
  exact (isWord_of_mem_numerals hword).ne_nil (h _ hword)

end Clause

namespace Cnf

variable {f : Cnf} {root : Option Variable} {l : String}

/-- The lines of the comments ahead of the header. -/
def commentLines (f : Cnf) (root : Option Variable) : List String :=
  (if f.namesLine.isEmpty then []
    else ["c Encoding of original variables:", "c " ++ f.namesLine]) ++
  match root with
  | none => []
  | some v => ["c Variable corresponding to the root node: " ++ toString v.number]

/-- The words of the header. -/
def headerWords (f : Cnf) : List (List Char) :=
  [['p'], ['c', 'n', 'f'], (toString f.numVars).toList, (toString f.clauses.length).toList]

/-- The header line. -/
def headerLine (f : Cnf) : String := s!"p cnf {f.numVars} {f.clauses.length}"

/-- The lines of the DIMACS text. -/
def dimacsLines (f : Cnf) (root : Option Variable) : List String :=
  f.commentLines root ++ f.headerLine :: f.clauses.map Clause.toLine

theorem toList_headerLine (f : Cnf) : f.headerLine.toList = [' '].intercalate f.headerWords := by
  have hline : f.headerLine = "p cnf " ++ toString f.numVars ++ " " ++
    toString f.clauses.length := rfl
  rw [hline]
  simp [headerWords, String.toList_append, List.intercalate_cons_cons]

theorem comments_eq (f : Cnf) (root : Option Variable) :
    f.comments root = String.join ((f.commentLines root).map (· ++ "\n")) := by
  have hnames : s!"c Encoding of original variables:\nc {f.namesLine}\n" =
      "c Encoding of original variables:\n" ++ ("c " ++ f.namesLine ++ "\n") := by
    rw [← String.append_assoc, ← String.append_assoc]
    rfl
  have hroot (v : Variable) : s!"c Variable corresponding to the root node: {v.number}\n" =
    "c Variable corresponding to the root node: " ++ toString v.number ++ "\n" := rfl
  simp only [comments, commentLines, hnames, hroot]
  cases f.namesLine.isEmpty <;> cases root <;> simp [String.join_cons, String.append_assoc]

theorem toString_eq (f : Cnf) : toString f =
    String.join ((f.headerLine :: f.clauses.map Clause.toLine).map (· ++ "\n")) := by
  have hdef : toString f = f.headerLine ++ "\n" ++
    String.join (f.clauses.map fun c => c.toLine ++ "\n") := rfl
  rw [hdef, List.map_cons, String.join_cons, List.map_map]
  rfl

/-- Every line is ended by a line feed. -/
theorem toList_toDimacs (f : Cnf) (root : Option Variable) : (f.toDimacs root).toList =
    ((f.dimacsLines root).map String.toList).flatMap (· ++ ['\n']) := by
  have hjoin : f.toDimacs root = String.join ((f.dimacsLines root).map (· ++ "\n")) := by
    rw [toDimacs, comments_eq, toString_eq, dimacsLines, List.map_append, String.join_append]
  rw [hjoin, String.toList_join, List.flatMap_map, List.flatMap_map]
  simp only [String.toList_append]
  rfl

theorem mem_names_of_mem_named {table : VariableTable} {v : Variable} {name : String}
    (h : (v, name) ∈ table.named) : some name ∈ table.names.toList := by
  obtain ⟨x, -, hx⟩ := List.mem_filterMap.mp h
  obtain ⟨y, hy, heq⟩ := Option.map_eq_some_iff.mp hx
  obtain ⟨rfl, rfl⟩ := Prod.mk.inj heq
  rw [VariableTable.name?, Option.join_eq_some_iff] at hy
  exact Array.mem_toList_iff.mpr (Array.mem_of_getElem? hy)

theorem lineFeed_notMem_namesLine (hnames : f.table.NamesInLine) : '\n' ∉ f.namesLine.toList := by
  intro hmem
  rw [namesLine, String.toList_intercalate, List.map_map] at hmem
  rcases mem_intercalate hmem with hcomma | ⟨part, hpart, hc⟩
  · exact absurd hcomma (by decide)
  · obtain ⟨⟨v, name⟩, hnamed, rfl⟩ := List.mem_map.mp hpart
    have htext : s!"{name}: {v.number}".toList =
        name.toList ++ ": ".toList ++ (toString v.number.toNat).toList := by
      rw [← String.toList_append, ← String.toList_append]
      rfl
    rw [Function.comp_apply, htext, List.mem_append, List.mem_append] at hc
    rcases hc with (hc | hc) | hc
    · exact hnames name (mem_names_of_mem_named hnamed) hc
    · exact absurd hc (by decide)
    · exact (Text.isWord_toString_nat v.number.toNat).lineFeed_notMem hc

/-- A comment is one line, and starts as a comment does. -/
theorem commentLines_spec (hnames : f.table.NamesInLine) (hl : l ∈ f.commentLines root) :
    '\n' ∉ l.toList ∧ Text.lead l.toList = some 'c' := by
  rcases List.mem_append.mp hl with hl | hl
  · split at hl
    · cases hl
    · simp only [List.mem_cons, List.not_mem_nil, or_false] at hl
      rcases hl with rfl | rfl
      · exact ⟨by decide, Text.lead_cons _ (by decide)⟩
      · rw [String.toList_append]
        refine ⟨fun hmem => ?_, Text.lead_cons _ (by decide)⟩
        rcases List.mem_append.mp hmem with hc | hc
        · exact absurd hc (by decide)
        · exact lineFeed_notMem_namesLine hnames hc
  · cases root with
    | none => cases hl
    | some v =>
      rw [List.mem_singleton.mp hl, String.toList_append]
      refine ⟨fun hmem => ?_, Text.lead_cons _ (by decide)⟩
      rcases List.mem_append.mp hmem with hc | hc
      · exact absurd hc (by decide)
      · exact (Text.isWord_toString_nat v.number.toNat).lineFeed_notMem hc

theorem isWord_of_mem_headerWords {word : List Char} (h : word ∈ f.headerWords) :
    Text.IsWord word := by
  simp only [headerWords, List.mem_cons, List.not_mem_nil, or_false] at h
  rcases h with rfl | rfl | rfl | rfl
  · exact ⟨by simp, by simp [Text.isBlank, Text.blankRanges]⟩
  · exact ⟨by simp, by simp [Text.isBlank, Text.blankRanges]⟩
  · exact Text.isWord_toString_nat f.numVars
  · exact Text.isWord_toString_nat f.clauses.length

theorem lead_headerLine (f : Cnf) : Text.lead f.headerLine.toList = some 'p' := by
  rw [toList_headerLine, Text.lead, Text.words_intercalate fun _ => isWord_of_mem_headerWords]
  rfl

theorem dimacsLines_spec (hnames : f.table.NamesInLine) (hl : l ∈ f.dimacsLines root) :
    '\n' ∉ l.toList ∧ Text.lead l.toList ≠ some '%' := by
  rcases List.mem_append.mp hl with hl | hl
  · obtain ⟨hlineFeed, hlead⟩ := commentLines_spec hnames hl
    exact ⟨hlineFeed, by simp [hlead]⟩
  rcases List.mem_cons.mp hl with rfl | hl
  · refine ⟨?_, by simp [lead_headerLine]⟩
    rw [toList_headerLine]
    exact Text.lineFeed_notMem_intercalate fun _ => isWord_of_mem_headerWords
  · obtain ⟨c, -, rfl⟩ := List.mem_map.mp hl
    refine ⟨?_, c.lead_toLine_ne (by decide)⟩
    rw [Clause.toList_toLine]
    exact Text.lineFeed_notMem_intercalate fun _ => Clause.isWord_of_mem_numerals

end Cnf

end Dpll
