import Dpll.Text.Words

/-! Words of texts that are put together from parts. A blank always ends a word
(`Text.words_append_cons`), so the words of a text are read off part by part; together they are the
text without its blanks (`Text.flatten_words`). -/

namespace Dpll

theorem flatten_splitOnP {α : Type u} (p : α → Bool) (as : List α) :
    (as.splitOnP p).flatten = as.filter fun a => !p a := by
  induction as with
  | nil => rfl
  | cons a as ih =>
    obtain ⟨piece, pieces, hpieces⟩ := List.exists_cons_of_ne_nil (List.splitOnP_ne_nil p as)
    rw [hpieces, List.flatten_cons] at ih
    rw [List.splitOnP_cons_eq_if_modifyHead, List.filter_cons, ← ih, hpieces]
    cases p a <;> rfl

theorem mem_of_mem_splitOnP {α : Type u} {p : α → Bool} {as piece : List α} {a : α}
    (h : piece ∈ as.splitOnP p) (ha : a ∈ piece) : a ∈ as ∧ p a = false := by
  have hmem := List.mem_flatten.mpr ⟨piece, h, ha⟩
  rw [flatten_splitOnP] at hmem
  simpa using hmem

theorem mem_intercalate {α : Type u} {sep : List α} {parts : List (List α)} {a : α}
    (h : a ∈ sep.intercalate parts) : a ∈ sep ∨ ∃ part ∈ parts, a ∈ part := by
  induction parts with
  | nil => cases h
  | cons part parts ih =>
    cases parts with
    | nil =>
      rw [List.intercalate_singleton] at h
      exact .inr ⟨part, List.mem_singleton_self part, h⟩
    | cons part' parts =>
      rw [List.intercalate_cons_cons, List.append_assoc, List.mem_append, List.mem_append] at h
      rcases h with h | h | h
      · exact .inr ⟨part, List.mem_cons_self, h⟩
      · exact .inl h
      · exact (ih h).imp_right fun ⟨x, hx, ha⟩ => ⟨x, List.mem_cons_of_mem part hx, ha⟩

namespace Text

variable {c : Char} {cs : List Char}

@[simp]
theorem words_nil : words [] = [] := rfl

theorem words_append_cons (cs cs' : List Char) (hc : isBlank c = true) :
    words (cs ++ c :: cs') = words cs ++ words cs' := by
  rw [words, List.splitOnP_append_cons cs cs' hc, List.filter_append, words, words]

theorem words_cons_of_isBlank (cs : List Char) (hc : isBlank c = true) :
    words (c :: cs) = words cs :=
  words_append_cons [] cs hc

/-- Characters without a blank among them are one word. -/
theorem words_eq_singleton (h : ∀ c ∈ cs, isBlank c = false) (hne : cs ≠ []) : words cs = [cs] := by
  rw [words, List.splitOnP_eq_singleton h]
  simp [hne]

theorem flatten_words (cs : List Char) : (words cs).flatten = cs.filter fun c => !isBlank c := by
  rw [words, List.flatten_filter_not_isEmpty, flatten_splitOnP]

theorem isBlank_of_mem_words {word : List Char} (h : word ∈ words cs) (hc : c ∈ word) :
    isBlank c = false :=
  (mem_of_mem_splitOnP (List.mem_filter.mp h).1 hc).2

theorem words_dropWhile (cs : List Char) : words (cs.dropWhile isBlank) = words cs := by
  induction cs with
  | nil => rfl
  | cons c cs ih =>
    rw [List.dropWhile_cons]
    split
    · next hc => rw [ih, words_cons_of_isBlank cs hc]
    · rfl

theorem words_reverse_dropWhile (cs : List Char) :
    words (cs.dropWhile isBlank).reverse = words cs.reverse := by
  induction cs with
  | nil => rfl
  | cons c cs ih =>
    rw [List.dropWhile_cons]
    split
    · next hc => rw [ih, List.reverse_cons, words_append_cons _ [] hc, words_nil, List.append_nil]
    · rfl

@[simp]
theorem words_trim (cs : List Char) : words (trim cs) = words cs := by
  rw [trim, words_reverse_dropWhile, List.reverse_reverse, words_dropWhile]

/-- A blank at the end is trimmed. -/
theorem trim_concat (cs : List Char) (hc : isBlank c = true) : trim (cs ++ [c]) = trim cs := by
  rw [trim, trim, List.dropWhile_append]
  cases hcs : cs.dropWhile isBlank with
  | nil => simp [hc]
  | cons d ds => simp [hc]

theorem isBlank_of_head?_trim (h : (trim cs).head? = some c) : isBlank c = false := by
  have hprefix : trim cs <+: cs.dropWhile isBlank := by
    have hsuffix := List.dropWhile_suffix (l := (cs.dropWhile isBlank).reverse) isBlank
    simpa [trim] using List.reverse_prefix.mpr hsuffix
  obtain ⟨rest, hrest⟩ := hprefix
  have hhead := List.head?_dropWhile_not isBlank cs
  rw [← hrest, List.head?_append, h, Option.some_or] at hhead
  exact hhead

/-- The first character that is not blank. -/
def lead (cs : List Char) : Option Char := (words cs).flatten.head?

theorem lead_cons (cs : List Char) (hc : isBlank c = false) : lead (c :: cs) = some c := by
  rw [lead, flatten_words, List.filter_cons_of_pos (by simp [hc]), List.head?_cons]

theorem head?_trim (cs : List Char) : (trim cs).head? = lead cs := by
  rw [lead, ← words_trim, flatten_words, List.head?_filter]
  cases htrim : trim cs with
  | nil => rfl
  | cons c rest =>
    have hhead : (trim cs).head? = some c := by rw [htrim, List.head?_cons]
    have hc := isBlank_of_head?_trim hhead
    rw [List.find?_cons_of_pos (by simp [hc]), List.head?_cons]

/-- The characters can stand together as a word. -/
structure IsWord (word : List Char) : Prop where
  ne_nil : word ≠ []
  isBlank_eq : ∀ c ∈ word, isBlank c = false

theorem IsWord.lineFeed_notMem {word : List Char} (h : IsWord word) : '\n' ∉ word := fun hmem =>
  absurd (h.isBlank_eq _ hmem) (by decide)

/-- Words with single spaces between them are the words of the whole. -/
theorem words_intercalate {ws : List (List Char)} (h : ∀ word ∈ ws, IsWord word) :
    words ([' '].intercalate ws) = ws := by
  induction ws with
  | nil => rfl
  | cons word ws ih =>
    obtain ⟨hword, hws⟩ := List.forall_mem_cons.mp h
    have hsingle := words_eq_singleton hword.isBlank_eq hword.ne_nil
    cases ws with
    | nil => rw [List.intercalate_singleton, hsingle]
    | cons word' ws =>
      rw [List.intercalate_cons_cons, List.append_assoc, List.singleton_append,
        words_append_cons _ _ (by decide), hsingle, ih hws, List.singleton_append]

theorem lineFeed_notMem_intercalate {ws : List (List Char)} (h : ∀ word ∈ ws, IsWord word) :
    '\n' ∉ [' '].intercalate ws := by
  intro hmem
  rcases mem_intercalate hmem with hspace | ⟨word, hword, hc⟩
  · exact absurd hspace (by decide)
  · exact (h word hword).lineFeed_notMem hc

end Text

end Dpll
