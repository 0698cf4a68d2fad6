import Dpll.Proofs.Dimacs.Grammar
import Dpll.Proofs.Text.Lines

/-! Where a DIMACS text is refused. The reader takes in line after line, and from any state it can be
brought to an end (`DimacsReader.exists_finish`), so an error about a line is an error about the first
line after which nothing could be read any more, and what follows that line has no part in it
(`DimacsDocument.read_refused`). -/

namespace Dpll

open DimacsReader

/-- The line that an error names. -/
def DimacsError.line? : DimacsError → Option Nat
  | clauseBeforeHeader line => some line
  | malformedHeader line _ => some line
  | duplicateHeader line => some line
  | invalidLiteral line _ => some line
  | variableOutOfRange line _ _ => some line
  | unreadable _ | missingHeader | unterminatedClause => none

/-- The error names the line `k` of the bytes, or the bytes are not UTF-8 and this is the first line
that shows it. -/
def DimacsError.Concerns (e : DimacsError) (bytes : List UInt8) (k : Nat) : Prop :=
  e.line? = some k ∨ e = .unreadable .invalidUtf8 ∧
    ((Text.lines bytes).findIdx? fun line => (Text.decode? line).isNone).map (· + 1) = some k

namespace Text

/-- Whether the word is the numeral of a number of 32 bits that is not beyond `numVars`. -/
def isNumeral (numVars : Nat) (word : List Char) : Bool :=
  (int32? word).any fun n => n.toInt.natAbs ≤ numVars

/-- The first of the content lines is a header that declares `numVars` variables. -/
def Declares (lines : List (List UInt8)) (numVars : Nat) : Prop :=
  ∃ header body declared, contentTexts lines = header :: body ∧
    header? header = some (numVars, declared)

end Text

namespace DimacsError

/-- The error is about a word of a clause line. -/
def isAboutWord : DimacsError → Bool
  | invalidLiteral _ _ | variableOutOfRange _ _ _ => true
  | _ => false

/-- The error reports, for line `k`, the first of the words that is not a numeral in range: either it
is no numeral, or its number is beyond `numVars`. -/
def Reports (e : DimacsError) (k numVars : Nat) (words : List (List Char)) : Prop :=
  ∃ word, words.find? (fun w => !Text.isNumeral numVars w) = some word ∧
    (Text.int32? word = none ∧ e = .invalidLiteral k (String.ofList word) ∨
      ∃ i, Text.int32? word = some i ∧ e = .variableOutOfRange k i numVars)

end DimacsError

namespace DimacsReader

/-- Takes in one line, and a reader is left unless the data ends there. -/
def step (r : DimacsReader) (n : Nat) (line : List UInt8) :
    Except DimacsError (Option DimacsReader) :=
  match Text.trimmed? line with
  | none => .error (.unreadable .invalidUtf8)
  | some text =>
    if text.head? = some '%' then .ok none
    else if Text.isContent text then (r.content n text).map some
    else .ok (some r)

/-- The lines from number `n` on are all taken in and do not end the data. -/
inductive Passes : DimacsReader → Nat → List (List UInt8) → DimacsReader → Prop where
  | nil : Passes r n [] r
  | cons : r.step n line = .ok (some r₁) → Passes r₁ (n + 1) lines r' →
      Passes r n (line :: lines) r'

variable {r r' r₁ : DimacsReader} {n numVars : Nat} {line : List UInt8}
  {lines lines' : List (List UInt8)} {e : DimacsError} {d : DimacsDocument}

theorem readLines_step (r : DimacsReader) (n : Nat) (line : List UInt8) (lines : List (List UInt8)) :
    r.readLines n (line :: lines) =
      match r.step n line with
      | .error e => .error e
      | .ok none => .ok r
      | .ok (some r') => r'.readLines (n + 1) lines := by
  rw [step, Text.trimmed?]
  cases hdecode : Text.decode? line with
  | none => simp only [readLines, hdecode, Option.map_none]
  | some cs =>
    rw [readLines_cons hdecode, Text.endsData_of_decode? hdecode, Option.map_some]
    dsimp only
    by_cases hend : (Text.trim cs).head? = some '%'
    · simp [hend]
    · cases Text.isContent (Text.trim cs) with
      | false => simp [hend]
      | true => cases r.content n (Text.trim cs) <;> simp [hend, Except.map]

/-- Lines that say the same are read alike. -/
theorem readLines_congr (h : lines.map Text.trimmed? = lines'.map Text.trimmed?) :
    r.readLines n lines = r.readLines n lines' := by
  induction lines generalizing lines' r n with
  | nil => rw [List.map_eq_nil_iff.mp h.symm]
  | cons line lines ih =>
    cases lines' with
    | nil => cases h
    | cons line' lines' =>
      obtain ⟨hline, hlines⟩ := List.cons.inj h
      have hstep : r.step n line = r.step n line' := by rw [step, step, hline]
      simp only [readLines_step, hstep, ih hlines]

theorem step_eq_some (h : r.step n line = .ok (some r')) :
    (Text.decode? line).isSome = true ∧ Text.endsData line = false := by
  rw [step, Text.trimmed?] at h
  cases hdecode : Text.decode? line with
  | none =>
    rw [hdecode] at h
    cases h
  | some cs =>
    refine ⟨rfl, ?_⟩
    rw [Text.endsData_of_decode? hdecode, decide_eq_false_iff_not]
    intro hend
    simp [hdecode, hend] at h

namespace Passes

theorem readLines_append (h : Passes r n lines r') (rest : List (List UInt8)) :
    r.readLines n (lines ++ rest) = r'.readLines (n + lines.length) rest := by
  induction h with
  | nil => rfl
  | cons hstep _ ih =>
    rw [List.cons_append, readLines_step, hstep]
    simpa only [List.length_cons, Nat.add_right_comm, Nat.add_assoc] using ih

theorem take (h : Passes r n lines r') (j : Nat) : ∃ r₁, Passes r n (lines.take j) r₁ := by
  induction h generalizing j with
  | nil =>
    rw [List.take_nil]
    exact ⟨_, .nil⟩
  | cons hstep _ ih =>
    cases j with
    | zero => exact ⟨_, .nil⟩
    | succ j =>
      obtain ⟨r₁, h₁⟩ := ih j
      exact ⟨r₁, .cons hstep h₁⟩

theorem isSome_decode? (h : Passes r n lines r') :
    ∀ line ∈ lines, (Text.decode? line).isSome = true := by
  induction h with
  | nil => simp
  | cons hstep _ ih =>
    obtain ⟨hdecode, -⟩ := step_eq_some hstep
    exact List.forall_mem_cons.mpr ⟨hdecode, ih⟩

theorem dataLines_eq (h : Passes r n lines r') : Text.dataLines lines = lines := by
  induction h with
  | nil => rfl
  | cons hstep _ ih =>
    obtain ⟨-, hend⟩ := step_eq_some hstep
    rw [Text.dataLines_cons hend, ih]

/-- The header was among the lines. -/
theorem declares (h : Passes start n lines r') {declared : Nat}
    (hr : r'.header = some (numVars, declared)) : Text.Declares lines numVars := by
  have hread : start.readLines n lines = .ok r' := by
    have happend := h.readLines_append []
    rwa [List.append_nil] at happend
  obtain ⟨-, htakes⟩ := readLines_eq_ok_iff.mp hread
  rw [h.dataLines_eq] at htakes
  rcases takes_start_iff.mp htakes with ⟨-, rfl⟩ | ⟨header, body, h', heq, -, hh, hbody⟩
  · cases hr
  · obtain ⟨-, ns, -, rfl⟩ := (takes_iff rfl).mp hbody
    rw [header_foldl_number] at hr
    obtain rfl := Option.some.inj hr
    exact ⟨header, body, declared, heq, hh⟩

end Passes

/-- An error comes from the line after those that pass. -/
theorem exists_passes_of_readLines (h : r.readLines n lines = .error e) :
    ∃ front line back r', lines = front ++ line :: back ∧ Passes r n front r' ∧
      r'.step (n + front.length) line = .error e := by
  induction lines generalizing r n with
  | nil => cases h
  | cons line lines ih =>
    rw [readLines_step] at h
    split at h
    · next e' he =>
      obtain rfl := Except.error.inj h
      exact ⟨[], line, lines, r, rfl, .nil, he⟩
    · cases h
    · next r₁ hstep =>
      obtain ⟨front, line', back, r', rfl, hfront, herror⟩ := ih h
      refine ⟨line :: front, line', back, r', rfl, .cons hstep hfront, ?_⟩
      rwa [List.length_cons, ← Nat.add_assoc, Nat.add_right_comm]

/-- What follows a line that no reader passes has no part in the outcome. -/
theorem readLines_append_cons
    (hline : ∀ (r : DimacsReader) (n : Nat) (r' : DimacsReader), r.step n line ≠ .ok (some r'))
    (rest rest' : List (List UInt8)) :
    r.readLines n (lines ++ line :: rest) = r.readLines n (lines ++ line :: rest') := by
  induction lines generalizing r n with
  | nil =>
    simp only [List.nil_append, readLines_step]
    split
    · rfl
    · rfl
    · next r' hstep => exact absurd hstep (hline r n r')
  | cons line' lines ih => simp only [List.cons_append, readLines_step, ih]

/-- A line that starts with `%`, right away or after blanks, is passed by no reader. -/
theorem step_ne_some (h : line.head? = some 0x25 ∨ Text.endsData line = true) (r : DimacsReader)
    (n : Nat) (r' : DimacsReader) : r.step n line ≠ .ok (some r') := by
  intro hstep
  obtain ⟨hdecode, hend⟩ := step_eq_some hstep
  obtain ⟨cs, hcs⟩ := Option.isSome_iff_exists.mp hdecode
  rcases h with h | h
  · rw [Text.endsData_of_decode? hcs, decide_eq_false_iff_not, Text.head?_trim] at hend
    rw [Text.decode?_eq_some_iff.mp hcs] at h
    cases cs with
    | nil => cases h
    | cons c cs =>
      have hhead : (String.utf8EncodeChar c).head? = some 0x25 := by
        rw [Text.encodeChars, List.flatMap_cons, List.head?_append] at h
        cases hc : (String.utf8EncodeChar c).head? with
        | none => exact absurd (List.head?_eq_none_iff.mp hc) String.utf8EncodeChar_ne_nil
        | some b => rwa [hc, Option.some_or] at h
      obtain rfl := Text.eq_of_mem_utf8EncodeChar (d := '%') (List.mem_of_head? hhead) rfl (by decide)
      exact hend (Text.lead_cons cs (by decide))
  · rw [hend] at h
    cases h

/-- Any state can be brought to an end: with a header, if there is none, and a zero. -/
theorem exists_finish (r : DimacsReader) :
    ∃ rest, ∀ n, ∃ d, (r.readLines n (Text.lines rest)).bind finish = .ok d := by
  have hzero (r : DimacsReader) (n : Nat) (h : Nat × Nat) (hr : r.header = some h) :
      ∃ d, (r.readLines n [[0x30]]).bind finish = .ok d := by
    have hdecode : Text.decode? [0x30] = some ['0'] := Text.decode?_encodeChars ['0']
    have hend : Text.endsData [0x30] = false := by
      rw [Text.endsData_of_decode? hdecode]
      decide
    have hnumerals : Numerals h.1 (Text.words (Text.trim ['0'])) [0] :=
      ⟨by decide, by simp⟩
    have hcontent : r.content n (Text.trim ['0']) = .ok (r.number 0) :=
      content_eq_ok_iff.mpr (.inr ⟨by decide, h, hr, [0], hnumerals, rfl⟩)
    rw [readLines_cons hdecode, hend, if_neg Bool.false_ne_true, if_pos (by decide), hcontent]
    exact ⟨⟨h.1, h.2, _⟩, finish_eq_ok_iff.mpr ⟨rfl, hr, rfl⟩⟩
  cases hr : r.header with
  | some h =>
    refine ⟨[0x30], fun n => ?_⟩
    have hlines : Text.lines [0x30] = [[0x30]] := by decide
    rw [hlines]
    exact hzero r n h hr
  | none =>
    refine ⟨Text.encodeChars "p cnf 0 0\n0".toList, fun n => ?_⟩
    have hlines : Text.lines (Text.encodeChars "p cnf 0 0\n0".toList) =
        [Text.encodeChars "p cnf 0 0".toList, [0x30]] := by decide
    have hdecode := Text.decode?_encodeChars "p cnf 0 0".toList
    have hend : Text.endsData (Text.encodeChars "p cnf 0 0".toList) = false := by
      rw [Text.endsData_of_decode? hdecode]
      decide
    have hcontent : r.content n (Text.trim "p cnf 0 0".toList) =
        .ok { r with header := some (0, 0) } :=
      content_eq_ok_iff.mpr (.inl ⟨by decide, hr, (0, 0), by decide, rfl⟩)
    rw [hlines, readLines_cons hdecode, hend, if_neg Bool.false_ne_true, if_pos (by decide), hcontent]
    exact hzero _ (n + 1) (0, 0) rfl

theorem tokens_eq_error {words : List (List Char)} (h : tokens n numVars r words = .error e) :
    e.Reports n numVars words := by
  induction words generalizing r with
  | nil => cases h
  | cons word words ih =>
    rw [tokens] at h
    cases hword : Text.int32? word with
    | none =>
      rw [hword] at h
      refine ⟨word, ?_, .inl ⟨hword, (Except.error.inj h).symm⟩⟩
      exact List.find?_cons_of_pos (by simp [Text.isNumeral, hword])
    | some i =>
      simp only [hword] at h
      by_cases hlt : numVars < i.toInt.natAbs
      · rw [if_pos hlt] at h
        refine ⟨word, ?_, .inr ⟨i, hword, (Except.error.inj h).symm⟩⟩
        exact List.find?_cons_of_pos (by simp [Text.isNumeral, hword, hlt])
      · rw [if_neg hlt] at h
        rw [DimacsError.Reports,
          List.find?_cons_of_neg (by simpa [Text.isNumeral, hword] using hlt)]
        exact ih h

/-- An error about a content line names it, and there is a header if the error is about a word. -/
theorem content_eq_error {text : List Char} (h : r.content n text = .error e) :
    e.line? = some n ∧ (e.isAboutWord = true →
      ∃ numVars declared, r.header = some (numVars, declared) ∧
        e.Reports n numVars (Text.words text)) := by
  unfold content at h
  split at h
  · obtain rfl := Except.error.inj h
    exact ⟨rfl, nofun⟩
  · split at h
    · obtain rfl := Except.error.inj h
      exact ⟨rfl, nofun⟩
    · cases h
  · obtain rfl := Except.error.inj h
    exact ⟨rfl, nofun⟩
  · next numVars declared hheader _ =>
    have hreports := tokens_eq_error h
    refine ⟨?_, fun _ => ⟨numVars, declared, hheader, hreports⟩⟩
    obtain ⟨word, -, ⟨-, rfl⟩ | ⟨i, -, rfl⟩⟩ := hreports <;> rfl

/-- A line is refused when it is not UTF-8 or for what it says. -/
theorem step_eq_error (h : r.step n line = .error e) :
    (Text.decode? line = none ∧ e = .unreadable .invalidUtf8) ∨
      ∃ cs, Text.decode? line = some cs ∧ e.line? = some n ∧ (e.isAboutWord = true →
        ∃ numVars declared, r.header = some (numVars, declared) ∧
          e.Reports n numVars (Text.words cs)) := by
  rw [step, Text.trimmed?] at h
  cases hdecode : Text.decode? line with
  | none =>
    rw [hdecode] at h
    exact .inl ⟨rfl, (Except.error.inj h).symm⟩
  | some cs =>
    right
    simp only [hdecode, Option.map_some] at h
    split at h
    · cases h
    split at h
    · cases hcontent : r.content n (Text.trim cs) with
      | error e' =>
        rw [hcontent] at h
        obtain rfl := Except.error.inj h
        have herror := content_eq_error hcontent
        rw [Text.words_trim] at herror
        exact ⟨cs, rfl, herror⟩
      | ok r' =>
        rw [hcontent] at h
        cases h
    · cases h

theorem finish_eq_error (h : r.finish = .error e) :
    e = .unterminatedClause ∨ e = .missingHeader := by
  unfold finish at h
  split at h
  · exact .inl (Except.error.inj h).symm
  · split at h
    · exact .inr (Except.error.inj h).symm
    · cases h

end DimacsReader

namespace DimacsDocument

variable {bytes : List UInt8} {k : Nat} {e : DimacsError}

theorem read_eq_bind (bytes : List UInt8) :
    read bytes = (start.readLines 1 (Text.lines bytes)).bind finish := by
  rw [read]
  cases start.readLines 1 (Text.lines bytes) <;> rfl

theorem read_opening_append (hk : k ≤ (Text.lines bytes).length) (rest : List UInt8) :
    read (Text.opening k bytes ++ rest) =
      (start.readLines 1 ((Text.lines bytes).take k ++ Text.lines rest)).bind finish := by
  rw [read_eq_bind, readLines_congr (Text.lines_opening_append hk rest)]

/-- An error about a line comes from that line, after others that passed. -/
theorem exists_passes_of_read (h : read bytes = .error e) (hk : e.Concerns bytes k) :
    ∃ front line back r, Text.lines bytes = front ++ line :: back ∧ front.length + 1 = k ∧
      Passes start 1 front r ∧ r.step k line = .error e := by
  rw [read_eq_bind] at h
  cases hread : start.readLines 1 (Text.lines bytes) with
  | ok r =>
    -- an error about the whole text is about no line
    rw [hread] at h
    rcases finish_eq_error h with rfl | rfl <;> rcases hk with hk | ⟨hk, -⟩ <;> cases hk
  | error e' =>
    rw [hread] at h
    obtain rfl := Except.error.inj h
    obtain ⟨front, line, back, r, hlines, hfront, hstep⟩ := exists_passes_of_readLines hread
    suffices front.length + 1 = k by
      rw [Nat.add_comm, this] at hstep
      exact ⟨front, line, back, r, hlines, this, hfront, hstep⟩
    rcases step_eq_error hstep with ⟨hdecode, rfl⟩ | ⟨cs, -, hline, -⟩
    · rcases hk with hk | ⟨-, hk⟩
      · cases hk
      · have hnot : front.findIdx? (fun line => (Text.decode? line).isNone) = none := by
          rw [List.findIdx?_eq_none_iff]
          intro line hline
          rw [← Option.not_isSome, hfront.isSome_decode? line hline, Bool.not_true]
        simpa [hlines, List.findIdx?_append, hnot, List.findIdx?_cons, hdecode] using hk
    · rcases hk with hk | ⟨rfl, -⟩
      · rw [hline] at hk
        rw [Nat.add_comm]
        exact Option.some.inj hk
      · cases hline

/-- An error about line `k` says that no text goes on after the first `k` lines, while some text goes
on after fewer of them; an error about a word reports the first wrong one of line `k`; and whatever
is put in the place of all that follows, the error is the same. Nor does the answer to any text
depend on what follows a line that starts with `%`. -/
theorem read_refused (bytes : List UInt8) :
    (∀ e k, read bytes = .error e → e.Concerns bytes k →
      (∀ rest d, read (Text.opening k bytes ++ rest) ≠ .ok d) ∧
      (∀ j < k, ∃ rest d, read (Text.opening j bytes ++ rest) = .ok d) ∧
      (e.isAboutWord = true →
        ∃ numVars line cs, Text.Declares ((Text.lines bytes).take (k - 1)) numVars ∧
          (Text.lines bytes)[k - 1]? = some line ∧ Text.decode? line = some cs ∧
          e.Reports k numVars (Text.words cs)) ∧
      ∀ rest, read (Text.opening k bytes ++ rest) = .error e) ∧
    ∀ j line, (Text.lines bytes)[j]? = some line →
      line.head? = some 0x25 ∨ Text.endsData line = true →
      ∀ rest, read (Text.opening (j + 1) bytes ++ rest) = read bytes := by
  constructor
  · intro e k h hk
    obtain ⟨front, line, back, r, hlines, rfl, hfront, hstep⟩ := exists_passes_of_read h hk
    have hlength : front.length + 1 ≤ (Text.lines bytes).length := by simp [hlines]
    have hsame (rest : List UInt8) :
        read (Text.opening (front.length + 1) bytes ++ rest) = .error e := by
      have htake : (Text.lines bytes).take (front.length + 1) = front ++ [line] := by
        rw [hlines, List.take_length_add_append]
        rfl
      rw [read_opening_append hlength, htake, List.append_assoc, hfront.readLines_append,
        List.singleton_append, readLines_step, Nat.add_comm, hstep]
      rfl
    refine ⟨fun rest d hd => ?_, fun j hj => ?_, fun hword => ?_, hsame⟩
    · exact nomatch (hsame rest).symm.trans hd
    · obtain ⟨r₁, hpass⟩ := hfront.take j
      obtain ⟨rest, hfinish⟩ := r₁.exists_finish
      obtain ⟨d, hd⟩ := hfinish (1 + (front.take j).length)
      have htake : (Text.lines bytes).take j = front.take j := by
        rw [hlines, List.take_append_of_le_length (Nat.le_of_lt_succ hj)]
      refine ⟨rest, d, ?_⟩
      rw [read_opening_append (Nat.le_trans (Nat.le_of_lt hj) hlength), htake, hpass.readLines_append]
      exact hd
    · rcases step_eq_error hstep with ⟨-, rfl⟩ | ⟨cs, hdecode, -, habout⟩
      · cases hword
      · obtain ⟨numVars, declared, hheader, hreports⟩ := habout hword
        refine ⟨numVars, line, cs, ?_, by simp [hlines], hdecode, hreports⟩
        have htake : (Text.lines bytes).take (front.length + 1 - 1) = front := by simp [hlines]
        rw [htake]
        exact hfront.declares hheader
  · intro j line hline hpercent rest
    obtain ⟨hj, hget⟩ := List.getElem?_eq_some_iff.mp hline
    have hsplit : Text.lines bytes =
        (Text.lines bytes).take j ++ line :: (Text.lines bytes).drop (j + 1) := by
      rw [← hget, ← List.drop_eq_getElem_cons hj, List.take_append_drop]
    rw [read_opening_append hj, List.take_add_one, hline, List.append_assoc, Option.toList_some,
      List.singleton_append, read_eq_bind,
      readLines_append_cons (step_ne_some hpercent) _ ((Text.lines bytes).drop (j + 1)), ← hsplit]


/-- A literal out of range on the second line, whatever comes next; and a text that has ended. -/
theorem read_refused_second_line :
    let bytes := Text.encodeChars "p cnf 1 1\n2 x\n0\n".toList
    let ended := Text.encodeChars "p cnf 0 0\n % 1".toList
    read bytes = .error (.variableOutOfRange 2 2 1) ∧
      read (Text.opening 2 bytes ++ [0x30]) = .error (.variableOutOfRange 2 2 1) ∧
      (∃ rest d, read (Text.opening 1 bytes ++ rest) = .ok d) ∧
      read ended = .ok ⟨0, 0, []⟩ ∧ read (Text.opening 2 ended ++ [0x31]) = .ok ⟨0, 0, []⟩ := by
  intro bytes ended
  have hread : read bytes = .error (.variableOutOfRange 2 2 1) := rfl
  obtain ⟨-, hopen, -, hsame⟩ := (read_refused bytes).1 _ 2 hread (.inl rfl)
  have hended : read ended = .ok ⟨0, 0, []⟩ := rfl
  have hpercent := (read_refused ended).2 1 (Text.encodeChars " % 1".toList) rfl (.inr rfl) [0x31]
  exact ⟨hread, hsame [0x30], hopen 1 (by decide), hended, hpercent.trans hended⟩

end DimacsDocument

end Dpll
