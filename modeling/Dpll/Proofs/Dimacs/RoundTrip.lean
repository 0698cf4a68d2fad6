import Dpll.Proofs.Dimacs.Writer
import Dpll.Proofs.Sources
import Dpll.Proofs.Text.Lines
import Mathlib.Data.List.TakeWhile

/-! Reading DIMACS text that was written. The content of the text is a header and the lines of the
clauses (`Cnf.contentTexts_toDimacs`), whatever the names in the comments, and its numbers are those
of the clauses, so every literal is read as what its number denotes (`Cnf.read_toDimacs_reread`). With
less than `2 ^ 31` variables this is the literal itself (`Cnf.read_toDimacs`). Then only the names are
lost, if they are not the numbers of the variables. -/

namespace Dpll

namespace Text

variable {ls : List (List Char)} {l : List Char}

/-- How a line of characters reads, its ending and the blanks at its ends left out. -/
def lineText (l : List Char) : List Char := trim (dropReturnChar l)

theorem words_lineText (l : List Char) : words (lineText l) = words l := by
  rw [lineText, words_trim, words_dropReturnChar]

theorem head?_lineText (l : List Char) : (lineText l).head? = lead l := by
  rw [lineText, head?_trim, lead, words_dropReturnChar, lead]

theorem isContent_lineText :
    isContent (lineText l) = true ↔ lead l ≠ none ∧ lead l ≠ some 'c' := by
  rw [isContent, head?_lineText, Bool.and_eq_true, bne_iff_ne, bne_iff_ne]

/-- The lines of an encoded text are data lines as long as none of them starts with `%`. -/
theorem contentTexts_encodeChars (h : ∀ l ∈ ls, '\n' ∉ l ∧ lead l ≠ some '%') :
    let bytes := encodeChars (ls.flatMap (· ++ ['\n']))
    (∀ line ∈ dataLines (lines bytes), (decode? line).isSome = true) ∧
      contentTexts (dataLines (lines bytes)) = (ls.map lineText).filter isContent := by
  intro bytes
  have hlines : lines bytes = ls.map fun l => encodeChars (dropReturnChar l) :=
    lines_encodeChars fun l hl => (h l hl).1
  have hdata : dataLines (lines bytes) = lines bytes := by
    refine List.takeWhile_eq_self_iff.mpr fun line hline => ?_
    rw [hlines] at hline
    obtain ⟨l, hl, rfl⟩ := List.mem_map.mp hline
    have hhead : (trim (dropReturnChar l)).head? = lead l := head?_lineText l
    rw [endsData_of_decode? (decode?_encodeChars _), hhead]
    simpa using (h l hl).2
  rw [hdata, hlines]
  constructor
  · intro line hline
    obtain ⟨l, -, rfl⟩ := List.mem_map.mp hline
    rw [decode?_encodeChars, Option.isSome_some]
  · simp [contentTexts, List.filterMap_map, Function.comp_def, decode?_encodeChars]
    rfl

end Text

namespace Cnf

variable {f : Cnf} {root : Option Variable}

/-- The numbers of all clauses. -/
def numbers (f : Cnf) : List Int32 := f.clauses.flatMap Clause.numbers

theorem runs_numbers (f : Cnf) :
    (DimacsDocument.runs f.numbers).map Clause.ofNumbers = f.clauses.map (List.map Literal.reread) := by
  have hparts : ∀ part ∈ f.clauses.map (List.map Literal.number), ∀ n ∈ part,
      (n == (0 : Int32)) = false := by
    intro part hpart n hn
    obtain ⟨c, -, rfl⟩ := List.mem_map.mp hpart
    obtain ⟨x, -, rfl⟩ := List.mem_map.mp hn
    have hsome := x.ofNumber?_number
    rw [beq_eq_false_iff_ne]
    intro hzero
    rw [hzero, Literal.ofNumber?_zero] at hsome
    cases hsome
  have hnumbers : f.numbers = (f.clauses.map (List.map Literal.number)).flatMap (· ++ [0]) := by
    rw [numbers, List.flatMap_map]
    rfl
  have hruns : DimacsDocument.runs f.numbers = f.clauses.map (List.map Literal.number) := by
    rw [DimacsDocument.runs, hnumbers, List.splitOn, splitOnP_flatMap_concat (by decide) hparts,
      List.dropLast_concat]
  rw [hruns, List.map_map]
  refine List.map_congr_left fun c _ => ?_
  rw [Function.comp_apply, Clause.ofNumbers, List.filterMap_map, ← List.filterMap_eq_map]
  exact List.filterMap_congr fun x _ => x.ofNumber?_number

theorem natAbs_le_of_mem_numbers (h : f.InRange) {n : Int32} (hn : n ∈ f.numbers) :
    n.toInt.natAbs ≤ f.numVars := by
  obtain ⟨c, hc, hn⟩ := List.mem_flatMap.mp hn
  rcases List.mem_append.mp hn with hn | hn
  · obtain ⟨x, hx, rfl⟩ := List.mem_map.mp hn
    exact Literal.natAbs_number x ▸ h c hc x hx
  · rw [List.mem_singleton.mp hn]
    exact Nat.zero_le _

theorem ended_numbers (f : Cnf) : f.numbers = [] ∨ f.numbers.getLast? = some 0 := by
  rcases List.eq_nil_or_concat f.clauses with hnil | ⟨cs, c, hconcat⟩
  · exact .inl (by rw [numbers, hnil, List.flatMap_nil])
  · refine .inr ?_
    rw [numbers, hconcat, List.concat_eq_append, List.flatMap_append, List.flatMap_singleton,
      Clause.numbers, ← List.append_assoc, List.getLast?_concat]

theorem numerals_numbers (h : f.InRange) :
    Numerals f.numVars (f.clauses.flatMap Clause.numerals) f.numbers where
  map_int32? := by
    have hnumerals : f.clauses.flatMap Clause.numerals =
        f.numbers.map fun n => (toString n.toInt).toList := by
      rw [numbers, List.map_flatMap]
      rfl
    rw [hnumerals, List.map_map]
    exact List.map_congr_left fun n _ => Text.int32?_toString n
  natAbs_le _ hn := natAbs_le_of_mem_numbers h hn

/-- The comments aside, the text has a header and clause lines. -/
theorem filter_isContent_dimacsLines (hnames : f.table.NamesInLine) :
    (((f.dimacsLines root).map String.toList).map Text.lineText).filter Text.isContent =
      Text.lineText f.headerLine.toList ::
        f.clauses.map fun c => Text.lineText c.toLine.toList := by
  have hcomments : ((f.commentLines root).map fun l => Text.lineText l.toList).filter
      Text.isContent = [] := by
    refine List.filter_eq_nil_iff.mpr fun _ hmem => ?_
    obtain ⟨l, hl, rfl⟩ := List.mem_map.mp hmem
    simp [Text.isContent_lineText, (commentLines_spec hnames hl).2]
  have hheader : Text.isContent (Text.lineText f.headerLine.toList) = true := by
    simp [Text.isContent_lineText, lead_headerLine]
  have hclauses : (f.clauses.map fun c => Text.lineText c.toLine.toList).filter Text.isContent =
      f.clauses.map fun c => Text.lineText c.toLine.toList := by
    refine List.filter_eq_self.mpr fun _ hmem => ?_
    obtain ⟨c, -, rfl⟩ := List.mem_map.mp hmem
    exact Text.isContent_lineText.mpr ⟨c.lead_toLine_ne_none, c.lead_toLine_ne (by decide)⟩
  have hlines : ((f.dimacsLines root).map String.toList).map Text.lineText =
      ((f.commentLines root).map fun l => Text.lineText l.toList) ++
        Text.lineText f.headerLine.toList ::
          f.clauses.map fun c => Text.lineText c.toLine.toList := by
    simp [dimacsLines, Function.comp_def]
  rw [hlines, List.filter_append, List.filter_cons_of_pos hheader, hcomments, hclauses,
    List.nil_append]

theorem contentTexts_toDimacs (hnames : f.table.NamesInLine) (root : Option Variable) :
    let lines := Text.dataLines (Text.lines (Text.encode (f.toDimacs root)))
    (∀ line ∈ lines, (Text.decode? line).isSome = true) ∧
      Text.contentTexts lines = Text.lineText f.headerLine.toList ::
        f.clauses.map fun c => Text.lineText c.toLine.toList := by
  have hlines : ∀ l ∈ (f.dimacsLines root).map String.toList,
      '\n' ∉ l ∧ Text.lead l ≠ some '%' := by
    intro _ hmem
    obtain ⟨l, hl, rfl⟩ := List.mem_map.mp hmem
    exact dimacsLines_spec hnames hl
  obtain ⟨hvalid, hcontent⟩ := Text.contentTexts_encodeChars hlines
  rw [Text.encode_eq, toList_toDimacs]
  exact ⟨hvalid, hcontent.trans (filter_isContent_dimacsLines hnames)⟩

/-- What is read of the text that is written for a formula. -/
theorem read_toDimacs_reread (h : f.InRange) (hsize : f.numVars < UInt64.size)
    (hlength : f.clauses.length < UInt64.size) (hnames : f.table.NamesInLine)
    (root : Option Variable) : DimacsDocument.read (Text.encode (f.toDimacs root)) =
      .ok ⟨f.numVars, f.clauses.length, f.clauses.map (List.map Literal.reread)⟩ := by
  obtain ⟨hvalid, hcontent⟩ := contentTexts_toDimacs hnames root
  refine DimacsDocument.read_eq_ok_iff.mpr ⟨hvalid, _, _, f.numbers, hcontent, ?_⟩
  refine ⟨⟨_, _, ?_, Text.unsigned?_toString hsize, Text.unsigned?_toString hlength⟩, ?_, ?_,
    ended_numbers f, (runs_numbers f).symm⟩
  · rw [Text.words_lineText, toList_headerLine,
      Text.words_intercalate fun _ => isWord_of_mem_headerWords]
    rfl
  · intro _ hmem
    obtain ⟨c, -, rfl⟩ := List.mem_map.mp hmem
    rw [Text.head?_lineText]
    exact c.lead_toLine_ne (by decide)
  · have hwords : (f.clauses.map fun c => Text.lineText c.toLine.toList).flatMap Text.words =
        f.clauses.flatMap Clause.numerals := by
      rw [List.flatMap_map]
      simp only [Text.words_lineText, Clause.words_toLine]
    rw [hwords]
    exact numerals_numbers h

theorem map_reread (h : f.InRange) (hsize : f.numVars < 2 ^ 31) :
    f.clauses.map (List.map Literal.reread) = f.clauses := by
  refine (List.map_congr_left fun c hc => ?_).trans (List.map_id _)
  refine (List.map_congr_left fun x hx => Literal.reread_eq ?_).trans (List.map_id _)
  exact Nat.lt_of_le_of_lt (h c hc x hx) hsize

theorem read_toDimacs (h : f.InRange) (hsize : f.numVars < 2 ^ 31)
    (hlength : f.clauses.length < UInt64.size)
    (hnames : f.table.NamesInLine) (root : Option Variable) :
    DimacsDocument.read (Text.encode (f.toDimacs root)) =
      .ok ⟨f.numVars, f.clauses.length, f.clauses⟩ := by
  rw [read_toDimacs_reread h (Nat.lt_trans hsize (by decide)) hlength hnames root,
    map_reread h hsize]

/-- The document of a formula gives the formula back if the variables are named by their numbers. -/
theorem toCnf_eq_iff (f : Cnf) (declared : Nat) :
    DimacsDocument.toCnf ⟨f.numVars, declared, f.clauses⟩ = f ↔
      f.table.names.toList = (List.range f.numVars).map fun i => some (toString (i + 1)) := by
  constructor
  · intro h
    have htable : VariableTable.numbered f.numVars = f.table := congrArg Cnf.table h
    rw [← htable]
    exact VariableTable.names_numbered f.numVars
  · intro h
    have hnames := Array.toList_inj.mp ((VariableTable.names_numbered f.numVars).trans h.symm)
    exact congrArg (Cnf.mk · f.clauses) (congrArg VariableTable.mk hnames)

/-- Writing DIMACS text and reading it loses nothing but names. A formula from any source, with at
most `2 ^ 31 - 1` variables and no more clauses than a word can count, is read back with its
variables and clauses and a header that counts them, whatever its names and its root are; it is the
formula itself exactly if the variables are named by their numbers. So it is if the formula was read
from text. -/
theorem toDimacs_lossless :
    (∀ f : Cnf, f.Sourced → f.numVars ≤ 2 ^ 31 - 1 → f.clauses.length < UInt64.size →
      ∀ root : Option Variable,
        ∃ d, DimacsDocument.read (Text.encode (f.toDimacs root)) = .ok d ∧
          d.numVars = f.numVars ∧ d.clauses = f.clauses ∧ d.declared = d.clauses.length ∧
          (d.toCnf = f ↔
            f.table.names.toList = (List.range f.numVars).map fun i => some (toString (i + 1)))) ∧
    ∀ (bytes : List UInt8) (d : DimacsDocument), DimacsDocument.read bytes = .ok d →
      d.numVars ≤ 2 ^ 31 - 1 → d.clauses.length < UInt64.size →
      ∀ root : Option Variable,
        ∃ d', DimacsDocument.read (Text.encode (d.toCnf.toDimacs root)) = .ok d' ∧
          d'.toCnf = d.toCnf := by
  have hread (f : Cnf) (h : f.Sourced) (hsize : f.numVars ≤ 2 ^ 31 - 1)
      (hlength : f.clauses.length < UInt64.size) (root : Option Variable) :=
    read_toDimacs h.inRange (by omega) hlength h.namesInLine root
  constructor
  · intro f h hsize hlength root
    exact ⟨_, hread f h hsize hlength root, rfl, rfl, rfl, toCnf_eq_iff f _⟩
  · intro bytes d h hsize hlength root
    have hnumVars : d.toCnf.numVars = d.numVars := VariableTable.size_numbered d.numVars
    refine ⟨_, hread d.toCnf (.read h) (hnumVars ▸ hsize) hlength root, (toCnf_eq_iff ..).mpr ?_⟩
    rw [hnumVars]
    exact VariableTable.names_numbered d.numVars

theorem toDimacs_lossless_named :
    let f : Cnf := ⟨⟨#[some "p cnf", none]⟩, [Clause.ofNumbers [1, -2], []]⟩
    ∃ d, DimacsDocument.read (Text.encode (f.toDimacs (some ⟨1⟩))) = .ok d ∧
      d.clauses = f.clauses ∧ d.toCnf ≠ f ∧
      ∃ d', DimacsDocument.read (Text.encode (d.toCnf.toDimacs none)) = .ok d' ∧
        d'.toCnf = d.toCnf := by
  intro f
  have hsourced : f.Sourced := by
    refine @Sourced.ofTable f.table f.clauses f rfl fun name hname => ?_
    have hone : name = "p cnf" := by simpa [f] using hname
    rw [hone]
    decide
  obtain ⟨d, hread, hsize, hclauses, -, hnames⟩ :=
    toDimacs_lossless.1 f hsourced (by decide) (by decide) (some ⟨1⟩)
  have hlength : d.clauses.length < UInt64.size := by
    rw [hclauses]
    decide
  have hsize' : d.numVars ≤ 2 ^ 31 - 1 := by
    rw [hsize]
    decide
  refine ⟨d, hread, hclauses, fun h => ?_, toDimacs_lossless.2 _ d hread hsize' hlength none⟩
  exact absurd (hnames.mp h) (by decide)

end Cnf

end Dpll
