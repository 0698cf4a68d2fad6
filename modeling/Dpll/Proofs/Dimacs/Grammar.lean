import Dpll.Dimacs.Reader
import Dpll.Proofs.Numbers
import Dpll.Proofs.Text.Lines

/-! The reader of DIMACS texts against the format. A text is one sequence of content lines, the
header first, and the numerals of the others are one sequence of numbers in which zeros end the
clauses (`DimacsDocument.Says`). The reader goes line by line; what a content line does to it
(`DimacsReader.content_eq_ok_iff`) does not depend on where the line stands, and over several lines
it adds up to taking in all their numbers (`DimacsReader.takes_iff`). -/

namespace Dpll

/-- Whether the line can be read and ends the data. -/
def Text.endsData (line : List UInt8) : Bool :=
  (decode? line).any fun cs => (trim cs).head? = some '%'

/-- Whether a line without blanks at its ends is neither blank nor a comment. -/
def Text.isContent (text : List Char) : Bool := text.head? != none && text.head? != some 'c'

/-- The lines ahead of the one that ends the data. -/
def Text.dataLines (lines : List (List UInt8)) : List (List UInt8) :=
  lines.takeWhile fun line => !endsData line

/-- What the lines say that are neither blank nor comments, without blanks at their ends. -/
def Text.contentTexts (lines : List (List UInt8)) : List (List Char) :=
  ((lines.filterMap decode?).map trim).filter isContent

namespace Text

variable {bytes : List UInt8} {lines : List (List UInt8)} {cs : List Char}

theorem dataLines_cons_of_endsData (h : endsData bytes = true) :
    dataLines (bytes :: lines) = [] := by
  simp [dataLines, h]

theorem dataLines_cons (h : endsData bytes = false) :
    dataLines (bytes :: lines) = bytes :: dataLines lines := by
  simp [dataLines, h]

theorem endsData_of_decode? (h : decode? bytes = some cs) :
    endsData bytes = decide ((trim cs).head? = some '%') := by
  rw [endsData, h, Option.any_some]

theorem contentTexts_cons (h : decode? bytes = some cs) : contentTexts (bytes :: lines) =
    if isContent (trim cs) then trim cs :: contentTexts lines else contentTexts lines := by
  rw [contentTexts, List.filterMap_cons_some h, List.map_cons, List.filter_cons]
  rfl

end Text

/-- The words are the numerals of the numbers, none of which is beyond `numVars`. -/
structure Numerals (numVars : Nat) (words : List (List Char)) (ns : List Int32) : Prop where
  map_int32? : words.map Text.int32? = ns.map some
  natAbs_le : ∀ n ∈ ns, n.toInt.natAbs ≤ numVars

namespace Numerals

variable {numVars : Nat} {word : List Char} {words words' : List (List Char)} {ns : List Int32}

theorem nil_iff : Numerals numVars [] ns ↔ ns = [] := by
  constructor
  · intro h
    exact List.map_eq_nil_iff.mp h.map_int32?.symm
  · rintro rfl
    exact ⟨rfl, by simp⟩

theorem cons_iff : Numerals numVars (word :: words) ns ↔ ∃ n ms, ns = n :: ms ∧
    Text.int32? word = some n ∧ n.toInt.natAbs ≤ numVars ∧ Numerals numVars words ms := by
  constructor
  · rintro ⟨hns, hle⟩
    cases ns with
    | nil => cases hns
    | cons n ms =>
      obtain ⟨hn, hms⟩ := List.cons.inj hns
      obtain ⟨hlen, hlems⟩ := List.forall_mem_cons.mp hle
      exact ⟨n, ms, rfl, hn, hlen, hms, hlems⟩
  · rintro ⟨n, ms, rfl, hn, hlen, hms⟩
    exact ⟨by rw [List.map_cons, hn, hms.map_int32?, List.map_cons],
      List.forall_mem_cons.mpr ⟨hlen, hms.natAbs_le⟩⟩

theorem append_iff : Numerals numVars (words ++ words') ns ↔
    ∃ ms ms', ns = ms ++ ms' ∧ Numerals numVars words ms ∧ Numerals numVars words' ms' := by
  induction words generalizing ns with
  | nil =>
    constructor
    · intro h
      exact ⟨[], ns, rfl, nil_iff.mpr rfl, h⟩
    · rintro ⟨ms, ms', rfl, hms, hms'⟩
      rwa [nil_iff.mp hms]
  | cons word words ih =>
    simp only [List.cons_append, cons_iff, ih]
    constructor
    · rintro ⟨n, _, rfl, hn, hle, ms, ms', rfl, hms, hms'⟩
      exact ⟨n :: ms, ms', rfl, ⟨n, ms, rfl, hn, hle, hms⟩, hms'⟩
    · rintro ⟨_, ms', rfl, ⟨n, ms, rfl, hn, hle, hms⟩, hms'⟩
      exact ⟨n, ms ++ ms', rfl, hn, hle, ms, ms', rfl, hms, hms'⟩

end Numerals

/-- The numbers between zeros, those after the last zero left out. -/
def DimacsDocument.runs (ns : List Int32) : List (List Int32) := (ns.splitOn 0).dropLast

namespace DimacsReader

variable {r r' : DimacsReader} {line numVars declared : Nat} {text : List Char}
  {texts : List (List Char)} {lines : List (List UInt8)} {d : DimacsDocument}

@[simp]
theorem header_number (r : DimacsReader) (n : Int32) : (r.number n).header = r.header := by
  unfold number
  split <;> rfl

theorem header_foldl_number (r : DimacsReader) (ns : List Int32) :
    (ns.foldl number r).header = r.header := by
  induction ns generalizing r with
  | nil => rfl
  | cons n ns ih => rw [List.foldl_cons, ih, header_number]

theorem header?_eq_some_iff : header? text = some (numVars, declared) ↔
    ∃ vars clauses, Text.words text = [['p'], ['c', 'n', 'f'], vars, clauses] ∧
      Text.unsigned? UInt64.size vars = some numVars ∧
      Text.unsigned? UInt64.size clauses = some declared := by
  unfold header?
  constructor
  · intro h
    split at h
    · next p cnf vars clauses hwords =>
      split at h
      · next hpc =>
        split at h
        · next v k hv hk =>
          cases h
          exact ⟨vars, clauses, by rw [hwords, hpc.1, hpc.2], hv, hk⟩
        · cases h
      · cases h
    · cases h
  · rintro ⟨vars, clauses, hwords, hv, hk⟩
    simp [hwords, hv, hk]

/-- A line of words is taken in exactly if the words are numerals in range. -/
theorem tokens_eq_ok_iff {words : List (List Char)} : tokens line numVars r words = .ok r' ↔
    ∃ ns, Numerals numVars words ns ∧ r' = ns.foldl number r := by
  induction words generalizing r with
  | nil => simp [tokens, Numerals.nil_iff, eq_comm]
  | cons word words ih =>
    rw [tokens]
    constructor
    · intro h
      split at h
      · cases h
      · next n hn =>
        split at h
        · cases h
        · next hle =>
          obtain ⟨ns, hns, rfl⟩ := ih.mp h
          exact ⟨_, Numerals.cons_iff.mpr ⟨n, ns, rfl, hn, Nat.le_of_not_lt hle, hns⟩, rfl⟩
    · rintro ⟨_, h, rfl⟩
      obtain ⟨n, ns, rfl, hn, hle, hns⟩ := Numerals.cons_iff.mp h
      simp only [hn, Nat.not_lt.mpr hle, if_false]
      exact ih.mpr ⟨ns, hns, rfl⟩

/-- The first of the content lines is the header, and all others are lines of numerals. -/
theorem content_eq_ok_iff : r.content line text = .ok r' ↔
    (text.head? = some 'p' ∧ r.header = none ∧
      ∃ h, header? text = some h ∧ r' = { r with header := some h }) ∨
    (text.head? ≠ some 'p' ∧ ∃ h, r.header = some h ∧
      ∃ ns, Numerals h.1 (Text.words text) ns ∧ r' = ns.foldl number r) := by
  unfold content
  split
  · next hp hh => simp [hp, hh]
  · next hp hh =>
    simp only [hp, hh, true_and, ne_eq, not_true, false_and, or_false]
    split
    · next hnone => simp [hnone]
    · next h hsome => simp [hsome, eq_comm]
  · next hh hp =>
    have hne : text.head? ≠ some 'p' := hp
    simp [hne, hh]
  · next hh hp =>
    have hne : text.head? ≠ some 'p' := hp
    simp [hne, hh, tokens_eq_ok_iff]

/-- The reader takes in the content lines, whatever their numbers. -/
def Takes (r : DimacsReader) : List (List Char) → DimacsReader → Prop
  | [], r' => r' = r
  | text :: texts, r' => ∃ line r₁, r.content line text = .ok r₁ ∧ r₁.Takes texts r'

theorem content_congr {line' : Nat} (h : r.content line text = .ok r') :
    r.content line' text = .ok r' :=
  content_eq_ok_iff.mpr (content_eq_ok_iff.mp h)

theorem readLines_cons {bytes : List UInt8} {cs : List Char} (h : Text.decode? bytes = some cs) :
    r.readLines line (bytes :: lines) =
      if Text.endsData bytes then .ok r
      else if Text.isContent (Text.trim cs) then
        match r.content line (Text.trim cs) with
        | .error e => .error e
        | .ok r => r.readLines (line + 1) lines
      else r.readLines (line + 1) lines := by
  simp only [readLines, h, Text.endsData_of_decode? h, Text.isContent]
  split
  · next hhead => simp [hhead]
  · next hhead => simp [hhead]
  · next hhead => simp [hhead]
  · next c hend hcomment hhead =>
    have hend' : ¬ decide ((Text.trim cs).head? = some '%') = true := by simpa [hhead] using hend
    have hcontent : ((Text.trim cs).head? != none && (Text.trim cs).head? != some 'c') = true := by
      simpa [hhead] using hcomment
    exact ((if_neg hend').trans (if_pos hcontent)).symm

/-- Reading the lines succeeds exactly if all data lines can be decoded and the content lines are
taken in. -/
theorem readLines_eq_ok_iff : r.readLines line lines = .ok r' ↔
    (∀ bytes ∈ Text.dataLines lines, (Text.decode? bytes).isSome = true) ∧
      r.Takes (Text.contentTexts (Text.dataLines lines)) r' := by
  induction lines generalizing r line with
  | nil =>
    constructor
    · intro h
      exact ⟨by simp [Text.dataLines], (Except.ok.inj h).symm⟩
    · rintro ⟨-, h⟩
      exact congrArg Except.ok h.symm
  | cons bytes lines ih =>
    cases hdecode : Text.decode? bytes with
    | none =>
      have hend : Text.endsData bytes = false := by rw [Text.endsData, hdecode, Option.any_none]
      simp [readLines, Text.dataLines_cons hend, hdecode]
    | some cs =>
      rw [readLines_cons hdecode]
      cases hend : Text.endsData bytes with
      | true =>
        rw [Text.dataLines_cons_of_endsData hend, if_pos rfl, Except.ok.injEq]
        exact ⟨fun h => ⟨by simp, h.symm⟩, fun h => h.2.symm⟩
      | false =>
        rw [Text.dataLines_cons hend, Text.contentTexts_cons hdecode, if_neg Bool.false_ne_true,
          List.forall_mem_cons, hdecode, Option.isSome_some, eq_self, true_and]
        cases Text.isContent (Text.trim cs) with
        | true =>
          rw [if_pos rfl, if_pos rfl]
          constructor
          · intro h
            split at h
            · cases h
            · next r₁ hr₁ =>
              obtain ⟨hvalid, htakes⟩ := ih.mp h
              exact ⟨hvalid, line, r₁, hr₁, htakes⟩
          · rintro ⟨hvalid, _, r₁, hr₁, htakes⟩
            rw [content_congr hr₁]
            exact ih.mpr ⟨hvalid, htakes⟩
        | false => exact ih

/-- Once there is a header the content lines are lines of numerals. -/
theorem takes_iff {h : Nat × Nat} (hr : r.header = some h) : r.Takes texts r' ↔
    (∀ text ∈ texts, text.head? ≠ some 'p') ∧
      ∃ ns, Numerals h.1 (texts.flatMap Text.words) ns ∧ r' = ns.foldl number r := by
  induction texts generalizing r with
  | nil => simp [Takes, Numerals.nil_iff]
  | cons text texts ih =>
    rw [Takes, List.forall_mem_cons, List.flatMap_cons]
    constructor
    · rintro ⟨line, r₁, hr₁, htakes⟩
      rcases content_eq_ok_iff.mp hr₁ with ⟨-, hnone, -⟩ | ⟨hhead, h', hh', ns, hns, rfl⟩
      · rw [hr] at hnone
        cases hnone
      · obtain rfl : h = h' := Option.some.inj (hr.symm.trans hh')
        obtain ⟨hheads, ms, hms, rfl⟩ := (ih ((header_foldl_number r ns).trans hr)).mp htakes
        refine ⟨⟨hhead, hheads⟩, ns ++ ms, Numerals.append_iff.mpr ⟨ns, ms, rfl, hns, hms⟩, ?_⟩
        rw [List.foldl_append]
    · rintro ⟨⟨hhead, hheads⟩, _, h, rfl⟩
      obtain ⟨ns, ms, rfl, hns, hms⟩ := Numerals.append_iff.mp h
      refine ⟨0, ns.foldl number r, content_eq_ok_iff.mpr (.inr ⟨hhead, _, hr, ns, hns, rfl⟩), ?_⟩
      exact (ih ((header_foldl_number r ns).trans hr)).mpr ⟨hheads, ms, hms, List.foldl_append⟩

/-- The first content line is the header. -/
theorem takes_start_iff : start.Takes texts r' ↔ (texts = [] ∧ r' = start) ∨
    ∃ header body h, texts = header :: body ∧ header.head? = some 'p' ∧ header? header = some h ∧
      Takes { start with header := some h } body r' := by
  cases texts with
  | nil => simp [Takes]
  | cons header body =>
    rw [Takes]
    constructor
    · rintro ⟨line, r₁, hr₁, htakes⟩
      rcases content_eq_ok_iff.mp hr₁ with ⟨hp, -, h, hh, rfl⟩ | ⟨-, h, hh, -⟩
      · exact .inr ⟨header, body, h, rfl, hp, hh, htakes⟩
      · cases hh
    · rintro (⟨h, -⟩ | ⟨_, _, h, heq, hp, hh, htakes⟩)
      · cases h
      · cases heq
        exact ⟨0, _, content_eq_ok_iff.mpr (.inl ⟨hp, rfl, h, hh, rfl⟩), htakes⟩

/-- All clauses so far, the one that has not ended last. -/
def pieces (r : DimacsReader) : List Clause := r.clauses.reverse ++ [r.current.reverse]

theorem number_zero (r : DimacsReader) :
    r.number 0 = { r with clauses := r.current.reverse :: r.clauses, current := [] } := rfl

theorem number_of_ofNumber? {n : Int32} {l : Literal} (h : Literal.ofNumber? n = some l) :
    r.number n = { r with current := l :: r.current } := by
  rw [number, h]

/-- Zeros end the clauses. -/
theorem pieces_foldl_number (ns : List Int32) (r : DimacsReader) : (ns.foldl number r).pieces =
    r.clauses.reverse ++
      ((ns.splitOn 0).map Clause.ofNumbers).modifyHead (r.current.reverse ++ ·) := by
  induction ns generalizing r with
  | nil => simp [pieces, Clause.ofNumbers]
  | cons n ns ih =>
    have hcons := List.splitOnP_cons_eq_if_modifyHead (p := (· == 0)) n ns
    obtain ⟨run, runs, hruns⟩ := List.exists_cons_of_ne_nil (List.splitOnP_ne_nil (· == 0) ns)
    rw [List.foldl_cons, ih, List.splitOn, List.splitOn, hcons, hruns]
    by_cases hn : n = 0
    · simp [hn, number_zero, Clause.ofNumbers]
    · have hl := Literal.ofNumber?_of_ne hn
      rw [number_of_ofNumber? hl, if_neg (by simpa using hn)]
      simp [Clause.ofNumbers, List.filterMap_cons_some hl]

theorem clauses_foldl_number (ns : List Int32) (hclauses : r.clauses = [])
    (hcurrent : r.current = []) : (ns.foldl number r).clauses.reverse =
      (DimacsDocument.runs ns).map Clause.ofNumbers := by
  have hpieces := pieces_foldl_number ns r
  obtain ⟨run, runs, hruns⟩ := List.exists_cons_of_ne_nil (List.splitOnP_ne_nil (· == 0) ns)
  rw [hclauses, hcurrent, List.splitOn, hruns] at hpieces
  have hdrop := congrArg List.dropLast hpieces
  rw [pieces, List.dropLast_concat] at hdrop
  rw [hdrop, DimacsDocument.runs, List.splitOn, hruns, List.map_dropLast]
  rfl

/-- A clause is open after the last number unless that is a zero. -/
theorem current_foldl_number (ns : List Int32) (hr : r.current = []) :
    (ns.foldl number r).current = [] ↔ ns = [] ∨ ns.getLast? = some 0 := by
  rcases List.eq_nil_or_concat ns with rfl | ⟨ms, n, rfl⟩
  · simp [hr]
  · rw [List.concat_eq_append, List.foldl_append, List.getLast?_concat]
    by_cases hn : n = 0
    · simp [hn, number_zero]
    · simp [hn, number_of_ofNumber? (Literal.ofNumber?_of_ne hn)]

theorem finish_eq_ok_iff : r.finish = .ok d ↔ r.current = [] ∧
    r.header = some (d.numVars, d.declared) ∧ d.clauses = r.clauses.reverse := by
  obtain ⟨numVars, declared, clauses⟩ := d
  unfold finish
  cases r.current with
  | nil =>
    cases r.header with
    | none => simp
    | some h =>
      obtain ⟨v, k⟩ := h
      simp [and_assoc, eq_comm]
  | cons => simp

end DimacsReader

namespace DimacsDocument

/-- A header and other content lines, whose numerals are the given numbers, say what the document
says. -/
structure Says (header : List Char) (body : List (List Char)) (ns : List Int32)
    (d : DimacsDocument) : Prop where
  words_header : ∃ vars clauses, Text.words header = [['p'], ['c', 'n', 'f'], vars, clauses] ∧
    Text.unsigned? UInt64.size vars = some d.numVars ∧
    Text.unsigned? UInt64.size clauses = some d.declared
  head?_body : ∀ line ∈ body, line.head? ≠ some 'p'
  numerals : Numerals d.numVars (body.flatMap Text.words) ns
  ended : ns = [] ∨ ns.getLast? = some 0
  clauses_eq : d.clauses = (runs ns).map Clause.ofNumbers

variable {bytes : List UInt8} {d : DimacsDocument} {text : List Char}

/-- Content lines have no blank ahead, so a header of the right words starts as a header does. -/
theorem head?_of_words_eq {lines : List (List UInt8)} (h : text ∈ Text.contentTexts lines)
    {words : List (List Char)} (hwords : Text.words text = ['p'] :: words) :
    text.head? = some 'p' := by
  obtain ⟨cs, -, rfl⟩ := List.mem_map.mp (List.mem_filter.mp h).1
  rw [Text.words_trim] at hwords
  rw [Text.head?_trim, Text.lead, hwords]
  rfl

theorem read_eq_ok_iff : read bytes = .ok d ↔
    (∀ line ∈ Text.dataLines (Text.lines bytes), (Text.decode? line).isSome = true) ∧
      ∃ header body ns,
        Text.contentTexts (Text.dataLines (Text.lines bytes)) = header :: body ∧
          Says header body ns d := by
  have hread : read bytes = .ok d ↔
      ∃ r, DimacsReader.start.readLines 1 (Text.lines bytes) = .ok r ∧ r.finish = .ok d := by
    rw [read]
    cases DimacsReader.start.readLines 1 (Text.lines bytes) <;> simp
  simp only [hread, DimacsReader.readLines_eq_ok_iff, and_assoc, exists_and_left]
  refine and_congr_right fun _ => ?_
  constructor
  · rintro ⟨r, htakes, hfinish⟩
    obtain ⟨hcurrent, hheader, hclauses⟩ := DimacsReader.finish_eq_ok_iff.mp hfinish
    rcases DimacsReader.takes_start_iff.mp htakes with
      ⟨-, rfl⟩ | ⟨header, body, h, heq, -, hh, hbody⟩
    · cases hheader
    · obtain ⟨hheads, ns, hns, rfl⟩ := (DimacsReader.takes_iff rfl).mp hbody
      rw [DimacsReader.header_foldl_number] at hheader
      obtain rfl := Option.some.inj hheader
      exact ⟨header, body, heq, ns, DimacsReader.header?_eq_some_iff.mp hh, hheads, hns,
        (DimacsReader.current_foldl_number ns rfl).mp hcurrent,
        hclauses.trans (DimacsReader.clauses_foldl_number ns rfl rfl)⟩
  · rintro ⟨header, body, heq, ns, hdoc⟩
    obtain ⟨vars, clauses, hwords, hv, hk⟩ := hdoc.words_header
    have hp := head?_of_words_eq (heq ▸ List.mem_cons_self) hwords
    have hh := DimacsReader.header?_eq_some_iff.mpr ⟨vars, clauses, hwords, hv, hk⟩
    refine ⟨_, DimacsReader.takes_start_iff.mpr (.inr ⟨header, body, _, heq, hp, hh,
      (DimacsReader.takes_iff rfl).mpr ⟨hdoc.head?_body, ns, hdoc.numerals, rfl⟩⟩), ?_⟩
    refine DimacsReader.finish_eq_ok_iff.mpr ⟨?_, ?_, ?_⟩
    · exact (DimacsReader.current_foldl_number ns rfl).mpr hdoc.ended
    · rw [DimacsReader.header_foldl_number]
    · exact hdoc.clauses_eq.trans (DimacsReader.clauses_foldl_number ns rfl rfl).symm

theorem mem_of_mem_runs {n : Int32} {ns run : List Int32} (h : run ∈ runs ns) (hn : n ∈ run) :
    n ∈ ns ∧ n ≠ 0 := by
  obtain ⟨hmem, hzero⟩ := mem_of_mem_splitOnP (List.dropLast_subset _ h) hn
  exact ⟨hmem, by simpa using hzero⟩

/-- The literals of the clauses have the numbers of the text. -/
theorem Says.map_number {header : List Char} {body : List (List Char)} {ns : List Int32}
    (h : Says header body ns d) : d.clauses.map (List.map Literal.number) = runs ns := by
  rw [h.clauses_eq, List.map_map]
  refine (List.map_congr_left fun run hrun => ?_).trans (List.map_id _)
  exact Clause.map_number_ofNumbers fun hzero => (mem_of_mem_runs hrun hzero).2 rfl

/-- A text is read exactly if it has the format: all lines ahead of the one that starts with `%` can
be decoded, and those of them that are neither blank nor comments are a header and lines of numerals
in range, the last of which is a zero if there is any. The formula has the variables `1` to the
number in the header, whatever number of clauses that announces, and its clauses are the numbers
between zeros, wherever the lines break. -/
theorem read_eq_ok_iff_format (bytes : List UInt8) (d : DimacsDocument) : read bytes = .ok d ↔
    (∀ line ∈ Text.dataLines (Text.lines bytes), (Text.decode? line).isSome = true) ∧
      ∃ header body ns,
        Text.contentTexts (Text.dataLines (Text.lines bytes)) = header :: body ∧
          Says header body ns d ∧
          d.toCnf.table.names.toList =
            (List.range d.numVars).map (fun i => some (toString (i + 1))) ∧
          d.toCnf.clauses.map (List.map Literal.number) = runs ns := by
  rw [read_eq_ok_iff]
  refine and_congr_right fun _ => ?_
  constructor
  · rintro ⟨header, body, ns, hcontent, hdoc⟩
    exact ⟨header, body, ns, hcontent, hdoc, VariableTable.names_numbered _, hdoc.map_number⟩
  · rintro ⟨header, body, ns, hcontent, hdoc, -, -⟩
    exact ⟨header, body, ns, hcontent, hdoc⟩

/-- A comment, a line that is ended by a carriage return as well, and a clause over two lines, of which
the last one is not ended. -/
example : read (Text.encodeChars "c x\np cnf 2 1\r\n1\n-2 0".toList) =
    .ok ⟨2, 1, [[⟨0⟩, ⟨3⟩]]⟩ := by
  rfl

end DimacsDocument

end Dpll
