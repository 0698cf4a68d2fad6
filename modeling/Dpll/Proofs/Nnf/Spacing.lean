import Dpll.Proofs.Nnf.Layout

/-! Blanks in formulas. Where there are blanks their number and kind do not matter, and at an end or
next to a parenthesis there may as well be none. Texts that differ in nothing else are respaced
(`NnfToken.Respaced`), and they are exactly the texts with the same tokens: each of them can be
respaced to its tokens with single spaces between them (`NnfToken.respaced_spaced`). -/

namespace Dpll.NnfToken

variable {c : Char} {cs ds gap gap' front back : List Char} {t : NnfToken} {ts : List NnfToken}

/-- No blank is needed between the texts: one of them is empty, or a parenthesis stands where they
meet. -/
def IsLoose (front back : List Char) : Prop :=
  (∀ c ∈ front.getLast?, IsParen c) ∨ ∀ c ∈ back.head?, IsParen c

/-- The texts differ only in blanks, in one place after the other. Where there are blanks, their
number and kind may change; at an end and next to a parenthesis they may also come and go. -/
inductive Respaced : List Char → List Char → Prop where
  | refl (cs : List Char) : Respaced cs cs
  | trans {cs ds es : List Char} : Respaced cs ds → Respaced ds es → Respaced cs es
  | respace {front gap gap' back : List Char} : IsGap gap → IsGap gap' →
      gap ≠ [] ∧ gap' ≠ [] ∨ IsLoose front back →
      Respaced (front ++ gap ++ back) (front ++ gap' ++ back)

theorem Respaced.symm (h : Respaced cs ds) : Respaced ds cs := by
  induction h with
  | refl cs => exact .refl cs
  | trans _ _ ih ih' => exact ih'.trans ih
  | respace hgap hgap' h => exact .respace hgap' hgap (h.imp_left And.symm)

/-! ## Respaced texts have the same tokens -/

theorem apart_gap_append (hgap : IsGap gap) (h : gap ≠ [] ∨ IsLoose front back) :
    Apart front (gap ++ back) := by
  cases gap with
  | nil =>
    rcases h.resolve_left (not_not_intro rfl) with hfront | hback
    · exact apart_of_getLast fun c hc => (hfront c hc).not_isPlain
    · exact apart_of_head fun c hc => (hback c hc).not_isPlain
  | cons c gap =>
    have hc : Text.isBlank c = true := hgap c List.mem_cons_self
    exact apart_of_head (by simpa using not_isPlain_of_isBlank hc)

theorem scan_gap (hgap : IsGap gap) (h : gap ≠ [] ∨ IsLoose front back) :
    scan [] (front ++ gap ++ back) = scan [] front ++ scan [] back := by
  rw [List.append_assoc, scan_append (apart_gap_append hgap h), scan_gap_append hgap]

theorem Respaced.scan_eq (h : Respaced cs ds) : scan [] cs = scan [] ds := by
  induction h with
  | refl => rfl
  | trans _ _ ih ih' => exact ih.trans ih'
  | respace hgap hgap' h =>
    rw [scan_gap hgap (h.imp_left And.left), scan_gap hgap' (h.imp_left And.right)]

/-! ## Texts with the same tokens are respaced -/

/-- The tokens with a space before each of them and one at the end. -/
def spaced : List NnfToken → List Char
  | [] => [' ']
  | t :: ts => ' ' :: t.text.toList ++ spaced ts

theorem isGap_space : IsGap [' '] := by
  intro c hc
  rw [List.mem_singleton.mp hc]
  rfl

/-- A token needs no blank before it where a text ends in none and no word goes across. -/
theorem IsLexeme.isLoose (ht : t.IsLexeme)
    (hlast : ∀ c ∈ front.getLast?, Text.isBlank c = false)
    (h : Apart front (t.text.toList ++ back)) : IsLoose front (t.text.toList ++ back) := by
  cases t with
  | leftParen => exact .inr fun c hc => by cases hc; exact .inl rfl
  | rightParen => exact .inr fun c hc => by cases hc; exact .inr rfl
  | word name =>
    refine .inl fun c hc => (isParen_or_isBlank_or_isPlain c).resolve_right ?_
    rintro (hblank | hplain)
    · exact Bool.false_ne_true ((hlast c hc).symm.trans hblank)
    · exact ht.not_isPlain_getLast h c hc hplain

/-- Behind a text that ends in no blank, every layout can be respaced to its tokens. -/
theorem Layout.respaced (h : Layout cs ts) (front gap : List Char) (hgap : IsGap gap)
    (hlast : ∀ c ∈ front.getLast?, Text.isBlank c = false) (hapart : Apart front (gap ++ cs)) :
    Respaced (front ++ gap ++ cs) (front ++ spaced ts) := by
  induction h generalizing front gap with
  | nil =>
    rw [spaced, ← List.append_nil (front ++ [' '])]
    exact .respace hgap isGap_space (.inr (.inr fun c hc => by cases hc))
  | @blank c cs _ hc _ ih =>
    have hgap' : IsGap (gap ++ [c]) := List.forall_mem_append.mpr
      ⟨hgap, fun d hd => List.mem_singleton.mp hd ▸ hc⟩
    have hrest := ih front (gap ++ [c]) hgap' hlast (by simpa using hapart)
    simpa using hrest
  | @token t cs ts ht hend _ ih =>
    have hne := ht.isWord.ne_nil
    have hstep : Respaced (front ++ gap ++ (t.text.toList ++ cs))
        (front ++ [' '] ++ (t.text.toList ++ cs)) := by
      refine .respace hgap isGap_space ?_
      by_cases hnil : gap = []
      · rw [hnil, List.nil_append] at hapart
        exact .inr (ht.isLoose hlast hapart)
      · exact .inl ⟨hnil, List.cons_ne_nil _ _⟩
    -- the token now ends what stands before the rest of the text
    have hlast' : ∀ c ∈ (front ++ [' '] ++ t.text.toList).getLast?, Text.isBlank c = false := by
      rw [List.getLast?_append_of_ne_nil _ hne]
      exact fun c hc => ht.isWord.isBlank_eq c (List.mem_of_getLast? hc)
    have hapart' : Apart (front ++ [' '] ++ t.text.toList) ([] ++ cs) :=
      hend.append_left _ fun hnil => absurd hnil hne
    have hrest := ih _ [] (List.forall_mem_nil _) hlast' hapart'
    refine hstep.trans ?_
    simpa [spaced] using hrest

theorem respaced_spaced (cs : List Char) : Respaced cs (spaced (scan [] cs)) :=
  (layout_scan_nil cs).respaced [] [] (List.forall_mem_nil _) (fun _ hc => by cases hc)
    (apart_nil_left _)

theorem scan_eq_scan_iff : scan [] cs = scan [] ds ↔ Respaced cs ds := by
  refine ⟨fun h => ?_, Respaced.scan_eq⟩
  have hcs := respaced_spaced cs
  rw [h] at hcs
  exact hcs.trans (respaced_spaced ds).symm

/-- The tokens of a text are the text without its blanks, cut into parentheses and words. Every word
stands in the text between the tokens before and after it, as a run of plain characters that could
not be longer, and between two words in a row there are blanks. The texts with the same tokens are
those that differ in blanks that separate nothing. -/
theorem ofText_lossless (text : String) :
    String.join ((ofText text).map NnfToken.text) =
        String.ofList (text.toList.filter fun c => !Text.isBlank c) ∧
      (∀ t ∈ ofText text, t.IsLexeme) ∧
      (∀ ts us x, ofText text = ts ++ word x :: us → ∃ front back,
        text.toList = front ++ x.toList ++ back ∧
          ofText (String.ofList front) = ts ∧ ofText (String.ofList back) = us ∧
          (∀ c ∈ front.getLast?, ¬ IsPlain c) ∧ ∀ c ∈ back.head?, ¬ IsPlain c) ∧
      (∀ ts us x y, ofText text = ts ++ word x :: word y :: us → ∃ front gap back,
        text.toList = front ++ x.toList ++ gap ++ y.toList ++ back ∧ IsGap gap ∧ gap ≠ [] ∧
          ofText (String.ofList front) = ts ∧ ofText (String.ofList back) = us) ∧
      ∀ text', ofText text = ofText text' ↔ Respaced text.toList text'.toList := by
  have hlayout : Layout text.toList (ofText text) := ofText_eq_iff.mp rfl
  refine ⟨?_, hlayout.isLexeme, fun ts us x h => ?_, fun ts us x y h => ?_,
    fun _ => scan_eq_scan_iff⟩
  · rw [← String.toList_inj, String.toList_join, List.flatMap_map, String.toList_ofList]
    exact hlayout.flatMap_text
  · rw [h] at hlayout
    obtain ⟨front, back, hcs, hfront, hback, hx, hleft, hright⟩ := hlayout.exists_around
    exact ⟨front, back, hcs, ofText_ofList_eq_iff.mpr hfront, ofText_ofList_eq_iff.mpr hback,
      hx.not_isPlain_getLast hleft, hx.not_isPlain_head hright⟩
  · rw [h] at hlayout
    obtain ⟨front, gap, back, hcs, hgap, hne, hfront, hback⟩ := hlayout.exists_gap
    exact ⟨front, gap, back, hcs, hgap, hne, ofText_ofList_eq_iff.mpr hfront,
      ofText_ofList_eq_iff.mpr hback⟩

/-- A wide space ends a name beyond ASCII, and a tab does as well. -/
theorem ofText_lossless_two_words :
    ofText "(é\u2003y)" = [leftParen] ++ word "é" :: word "y" :: [rightParen] ∧
      word "é" ∈ ofText "(é\u2003y)" ∧ (word "é").IsLexeme ∧
      (∃ front back, "(é\u2003y)".toList = front ++ "é".toList ++ back ∧
        ofText (String.ofList front) = [leftParen] ∧
        ofText (String.ofList back) = [word "y", rightParen] ∧
        (∀ c ∈ front.getLast?, ¬ IsPlain c) ∧ ∀ c ∈ back.head?, ¬ IsPlain c) ∧
      (∃ front gap back,
        "(é\u2003y)".toList = front ++ "é".toList ++ gap ++ "y".toList ++ back ∧
          IsGap gap ∧ gap ≠ [] ∧ ofText (String.ofList front) = [leftParen] ∧
          ofText (String.ofList back) = [rightParen]) ∧
      ofText "(é\u2003y)" = ofText " ( é\ty ) " ∧
      Respaced "(é\u2003y)".toList " ( é\ty ) ".toList := by
  obtain ⟨-, hlexeme, hword, hgap, hsame⟩ := ofText_lossless "(é\u2003y)"
  have htokens : ofText "(é\u2003y)" = [leftParen] ++ word "é" :: word "y" :: [rightParen] := by
    decide
  have hmem : word "é" ∈ ofText "(é\u2003y)" := by decide
  have heq : ofText "(é\u2003y)" = ofText " ( é\ty ) " := by decide
  exact ⟨htokens, hmem, hlexeme _ hmem, hword _ _ _ htokens, hgap _ _ _ _ htokens, heq,
    (hsame _).mp heq⟩

end Dpll.NnfToken
