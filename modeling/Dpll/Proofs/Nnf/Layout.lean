import Dpll.Proofs.Nnf.Token
import Mathlib.Data.List.Basic

/-! Tokens and the text they stand in. A text lays out its tokens one after the other, with blanks
anywhere between them, and no word could be longer (`NnfToken.Layout`). Every text lays out exactly
one list of tokens, those the scan finds (`NnfToken.scan_eq_iff`), so what holds of a layout holds
of the scan: only blanks are lost (`Layout.flatMap_text`), and around a token stand the tokens
before and after it (`Layout.exists_around`). A text may be cut wherever no word goes across
(`NnfToken.Apart`). -/

namespace Dpll.NnfToken

variable {c : Char} {cs ds es run gap front back : List Char} {t : NnfToken}
  {ts us : List NnfToken} {x y : String}

/-- A stretch of blanks, which may be empty. -/
def IsGap (cs : List Char) : Prop := ∀ c ∈ cs, Text.isBlank c = true

/-- Whether a character is a token by itself. -/
def IsParen (c : Char) : Prop := c = '(' ∨ c = ')'

/-- A parenthesis, or a word of at least one character, all of them plain. -/
def IsLexeme : NnfToken → Prop
  | leftParen | rightParen => True
  | word name => name ≠ "" ∧ ∀ c ∈ name.toList, IsPlain c

/-- No word goes on from one text to the next: the characters that meet are not both plain. -/
def Apart (cs ds : List Char) : Prop :=
  ∀ a ∈ cs.getLast?, ∀ b ∈ ds.head?, IsPlain a → ¬ IsPlain b

/-- The text is the tokens in order with blanks between them, and no word could be longer. -/
inductive Layout : List Char → List NnfToken → Prop where
  | nil : Layout [] []
  | blank {c : Char} {cs : List Char} {ts : List NnfToken} : Text.isBlank c = true →
      Layout cs ts → Layout (c :: cs) ts
  | token {t : NnfToken} {cs : List Char} {ts : List NnfToken} : t.IsLexeme →
      Apart t.text.toList cs → Layout cs ts → Layout (t.text.toList ++ cs) (t :: ts)

theorem not_isPlain_of_isBlank (hc : Text.isBlank c = true) : ¬ IsPlain c := fun h =>
  Bool.false_ne_true (h.1.symm.trans hc)

theorem IsParen.not_isPlain (hc : IsParen c) : ¬ IsPlain c := fun h => hc.elim h.2.1 h.2.2

theorem IsParen.isBlank_eq (hc : IsParen c) : Text.isBlank c = false := by
  rcases hc with rfl | rfl <;> rfl

theorem isParen_or_isBlank_or_isPlain (c : Char) :
    IsParen c ∨ Text.isBlank c = true ∨ IsPlain c := by
  by_cases hparen : IsParen c
  · exact .inl hparen
  cases hblank : Text.isBlank c with
  | true => exact .inr (.inl rfl)
  | false => exact .inr (.inr ⟨hblank, mt .inl hparen, mt .inr hparen⟩)

theorem IsLexeme.isWord (h : t.IsLexeme) : Text.IsWord t.text.toList := by
  cases t with
  | leftParen | rightParen =>
    exact ⟨List.cons_ne_nil _ _, fun c hc => by rw [List.mem_singleton.mp hc]; rfl⟩
  | word name => exact ⟨mt String.toList_eq_nil_iff.mp h.1, fun c hc => (h.2 c hc).1⟩

/-! ## Where texts may be cut -/

theorem apart_nil_left (ds : List Char) : Apart [] ds := fun _ ha => by cases ha

theorem apart_of_head (h : ∀ b ∈ ds.head?, ¬ IsPlain b) : Apart cs ds := fun _ _ b hb _ => h b hb

theorem apart_of_getLast (h : ∀ a ∈ cs.getLast?, ¬ IsPlain a) : Apart cs ds :=
  fun a ha _ _ hplain => absurd hplain (h a ha)

theorem Apart.append_right (h : Apart cs ds) (hnil : ds = [] → Apart cs es) :
    Apart cs (ds ++ es) := by
  cases ds with
  | nil => exact hnil rfl
  | cons d ds => exact h

theorem Apart.append_left (cs : List Char) (h : Apart ds es) (hnil : ds = [] → Apart cs es) :
    Apart (cs ++ ds) es := by
  cases ds with
  | nil =>
    rw [List.append_nil]
    exact hnil rfl
  | cons d ds =>
    rw [Apart, List.getLast?_append_cons]
    exact h

theorem Apart.of_append_right (h : Apart cs (ds ++ es)) : Apart cs ds := by
  cases ds with
  | nil => exact fun _ _ _ hb => by cases hb
  | cons d ds => exact h

theorem Apart.of_append_left (cs : List Char) (h : Apart (cs ++ ds) es) : Apart ds es := by
  cases ds with
  | nil => exact apart_nil_left es
  | cons d ds => rwa [Apart, List.getLast?_append_cons] at h

theorem IsLexeme.not_isPlain_head (hx : (word x).IsLexeme) (h : Apart x.toList back) :
    ∀ c ∈ back.head?, ¬ IsPlain c := fun c hc =>
  h _ (List.getLast?_eq_some_getLast hx.isWord.ne_nil) c hc (hx.2 _ (List.getLast_mem _))

theorem IsLexeme.not_isPlain_getLast (hx : (word x).IsLexeme)
    (h : Apart front (x.toList ++ back)) : ∀ c ∈ front.getLast?, ¬ IsPlain c := by
  intro c hc hplain
  have hne := hx.isWord.ne_nil
  have hhead := List.head?_eq_some_head (l := x.toList) hne
  exact h.of_append_right c hc _ hhead hplain (hx.2 _ (List.head_mem hne))

namespace Layout

theorem isLexeme (h : Layout cs ts) : ∀ t ∈ ts, t.IsLexeme := by
  induction h with
  | nil => exact fun _ ht => by cases ht
  | blank _ _ ih => exact ih
  | token ht _ _ ih => exact List.forall_mem_cons.mpr ⟨ht, ih⟩

/-- All but the blanks of a text is part of a token. -/
theorem flatMap_text (h : Layout cs ts) :
    ts.flatMap (fun t => t.text.toList) = cs.filter fun c => !Text.isBlank c := by
  induction h with
  | nil => rfl
  | blank hc _ ih => rw [ih, List.filter_cons_of_neg (by simp [hc])]
  | token ht _ _ ih =>
    have hkept := List.filter_eq_self.mpr fun c hc => congrArg not (ht.isWord.isBlank_eq c hc)
    rw [List.flatMap_cons, List.filter_append, ih, hkept]

theorem paren (hc : IsParen c) (h : Layout cs ts) : Layout (c :: cs) (ofWord [c] :: ts) := by
  have hend : Apart [c] cs := apart_of_getLast (by simpa using hc.not_isPlain)
  rcases hc with rfl | rfl
  · exact .token (t := leftParen) trivial hend h
  · exact .token (t := rightParen) trivial hend h

theorem gap_append (hgap : IsGap gap) (h : Layout cs ts) : Layout (gap ++ cs) ts := by
  induction gap with
  | nil => exact h
  | cons c gap ih =>
    obtain ⟨hc, hgap⟩ := List.forall_mem_cons.mp hgap
    exact .blank hc (ih hgap)

theorem isGap (h : Layout cs []) : IsGap cs := by
  generalize hts : ([] : List NnfToken) = ts at h
  induction h with
  | nil => exact List.forall_mem_nil _
  | blank hc _ ih => exact List.forall_mem_cons.mpr ⟨hc, ih hts⟩
  | token => cases hts

theorem append (hcs : Layout cs ts) (hds : Layout ds us) (h : Apart cs ds) :
    Layout (cs ++ ds) (ts ++ us) := by
  induction hcs with
  | nil => exact hds
  | @blank c _ _ hc _ ih => exact .blank hc (ih (h.of_append_left [c]))
  | token ht hend _ ih =>
    rw [List.append_assoc]
    refine .token ht (hend.append_right fun hnil => ?_) (ih (h.of_append_left _))
    rwa [hnil, List.append_nil] at h

/-- Before and after a token stand the tokens before and after it, and no word goes across. -/
theorem exists_around (h : Layout cs (ts ++ t :: us)) : ∃ front back,
    cs = front ++ t.text.toList ++ back ∧ Layout front ts ∧ Layout back us ∧ t.IsLexeme ∧
      Apart front (t.text.toList ++ back) ∧ Apart t.text.toList back := by
  generalize hall : ts ++ t :: us = all at h
  induction h generalizing ts with
  | nil => simp at hall
  | @blank c _ _ hc _ ih =>
    obtain ⟨front, back, rfl, hfront, hback, ht, hleft, hright⟩ := ih hall
    have hblank : Apart [c] (t.text.toList ++ back) :=
      apart_of_getLast (by simpa using not_isPlain_of_isBlank hc)
    exact ⟨c :: front, back, rfl, .blank hc hfront, hback, ht,
      hleft.append_left [c] fun _ => hblank, hright⟩
  | @token _ cs _ hlexeme hend hrest ih =>
    cases ts with
    | nil =>
      obtain ⟨rfl, rfl⟩ := List.cons.inj hall
      exact ⟨[], cs, rfl, .nil, hrest, hlexeme, apart_nil_left _, hend⟩
    | cons first ts =>
      obtain ⟨rfl, htail⟩ := List.cons.inj hall
      obtain ⟨front, back, rfl, hfront, hback, ht, hleft, hright⟩ := ih htail
      rw [List.append_assoc] at hend
      refine ⟨first.text.toList ++ front, back, by simp, .token hlexeme hend.of_append_right hfront,
        hback, ht, hleft.append_left _ fun hnil => ?_, hright⟩
      rwa [hnil, List.nil_append] at hend

/-- Between two words in a row there are blanks. -/
theorem exists_gap (h : Layout cs (ts ++ word x :: word y :: us)) : ∃ front gap back,
    cs = front ++ x.toList ++ gap ++ y.toList ++ back ∧ IsGap gap ∧ gap ≠ [] ∧
      Layout front ts ∧ Layout back us := by
  obtain ⟨front, rest, rfl, hfront, hrest, hx, -, hend⟩ := h.exists_around
  have hnext : Layout rest ([] ++ word y :: us) := hrest
  obtain ⟨gap, back, rfl, hgap, hback, hy, -, -⟩ := hnext.exists_around
  refine ⟨front, gap, back, by simp [text], hgap.isGap, ?_, hfront, hback⟩
  rintro rfl
  have hne := hy.isWord.ne_nil
  have hhead := List.head?_eq_some_head (l := y.toList) hne
  refine hx.not_isPlain_head hend _ ?_ (hy.2 _ (List.head_mem hne))
  exact (List.head?_append_of_ne_nil _ hne).trans hhead

end Layout

/-! ## The scan finds the layout -/

theorem scan_cons_paren (hc : IsParen c) (run cs : List Char) :
    scan run (c :: cs) = ofRun run.reverse ++ ofWord [c] :: scan [] cs := by
  rcases hc with rfl | rfl <;> rfl

theorem scan_cons_blank (hc : Text.isBlank c = true) (run cs : List Char) :
    scan run (c :: cs) = ofRun run.reverse ++ scan [] cs := by
  have hparen : ¬ IsParen c := fun h => Bool.false_ne_true (h.isBlank_eq.symm.trans hc)
  rw [scan, if_neg (mt .inl hparen), if_neg (mt .inr hparen), if_pos hc]

theorem scan_cons_plain (hc : IsPlain c) (run cs : List Char) :
    scan run (c :: cs) = scan (c :: run) cs := by
  rw [scan, if_neg hc.2.1, if_neg hc.2.2, if_neg (by simp [hc.1])]

theorem layout_ofRun (hrun : ∀ c ∈ run, IsPlain c) (hend : ∀ c ∈ cs.head?, ¬ IsPlain c)
    (h : Layout cs ts) : Layout (run ++ cs) (ofRun run ++ ts) := by
  cases run with
  | nil => exact h
  | cons c run =>
    have htext : (word (String.ofList (c :: run))).text.toList = c :: run := String.toList_ofList
    have hlexeme : (word (String.ofList (c :: run))).IsLexeme :=
      ⟨by simp, by rwa [String.toList_ofList]⟩
    have hlayout := Layout.token hlexeme (apart_of_head hend) h
    rwa [htext] at hlayout

theorem layout_scan (hrun : ∀ c ∈ run, IsPlain c) (cs : List Char) :
    Layout (run.reverse ++ cs) (scan run cs) := by
  induction cs generalizing run with
  | nil =>
    have hlayout := layout_ofRun (fun c hc => hrun c (List.mem_reverse.mp hc))
      (fun c hc => by cases hc) Layout.nil
    rwa [List.append_nil (ofRun _)] at hlayout
  | cons c cs ih =>
    -- a character that is not plain ends the run, and what follows it starts with none
    have hends (hc : ¬ IsPlain c) {ts : List NnfToken} (h : Layout (c :: cs) ts) :
        Layout (run.reverse ++ c :: cs) (ofRun run.reverse ++ ts) :=
      layout_ofRun (fun d hd => hrun d (List.mem_reverse.mp hd)) (by simpa using hc) h
    have hnext : Layout cs (scan [] cs) := @ih [] (List.forall_mem_nil _)
    rcases isParen_or_isBlank_or_isPlain c with hc | hc | hc
    · rw [scan_cons_paren hc]
      exact hends hc.not_isPlain (.paren hc hnext)
    · rw [scan_cons_blank hc]
      exact hends (not_isPlain_of_isBlank hc) (.blank hc hnext)
    · have hrest := ih (List.forall_mem_cons.mpr ⟨hc, hrun⟩)
      rw [List.reverse_cons, List.append_assoc] at hrest
      rwa [scan_cons_plain hc]

theorem scan_plain_append (hcs : ∀ c ∈ cs, IsPlain c) (run ds : List Char) :
    scan run (cs ++ ds) = scan (cs.reverse ++ run) ds := by
  induction cs generalizing run with
  | nil => rfl
  | cons c cs ih =>
    obtain ⟨hc, hcs⟩ := List.forall_mem_cons.mp hcs
    rw [List.cons_append, scan_cons_plain hc, ih hcs, List.reverse_cons, List.append_assoc,
      List.singleton_append]

theorem scan_of_head (hend : ∀ c ∈ cs.head?, ¬ IsPlain c) (run : List Char) :
    scan run cs = ofRun run.reverse ++ scan [] cs := by
  cases cs with
  | nil => exact (List.append_nil _).symm
  | cons c cs =>
    have hnil : ofRun ([] : List Char).reverse = [] := rfl
    rcases isParen_or_isBlank_or_isPlain c with hc | hc | hc
    · rw [scan_cons_paren hc, scan_cons_paren hc, hnil, List.nil_append]
    · rw [scan_cons_blank hc, scan_cons_blank hc, hnil, List.nil_append]
    · exact absurd hc (hend c rfl)

theorem Layout.scan_eq (h : Layout cs ts) : scan [] cs = ts := by
  induction h with
  | nil => rfl
  | blank hc _ ih => exact (scan_cons_blank hc [] _).trans ih
  | @token t cs ts ht hend _ ih =>
    cases t with
    | leftParen => exact (scan_cons_paren (.inl rfl) [] cs).trans (congrArg (leftParen :: ·) ih)
    | rightParen => exact (scan_cons_paren (.inr rfl) [] cs).trans (congrArg (rightParen :: ·) ih)
    | word name =>
      have hrun : ofRun name.toList = [word name] := by
        rw [ofRun, if_neg (by simpa using ht.1), String.ofList_toList]
      rw [text, scan_plain_append ht.2, scan_of_head (ht.not_isPlain_head hend), List.append_nil,
        List.reverse_reverse, hrun, ih, List.singleton_append]

/-- A text lays out the tokens that the scan finds, and no others. -/
theorem scan_eq_iff : scan [] cs = ts ↔ Layout cs ts :=
  ⟨fun h => h ▸ layout_scan (List.forall_mem_nil _) cs, Layout.scan_eq⟩

theorem layout_scan_nil (cs : List Char) : Layout cs (scan [] cs) := scan_eq_iff.mp rfl

theorem ofText_eq_iff {text : String} : ofText text = ts ↔ Layout text.toList ts := scan_eq_iff

theorem ofText_ofList_eq_iff : ofText (String.ofList cs) = ts ↔ Layout cs ts := by
  rw [ofText_eq_iff, String.toList_ofList]

/-- Where no word goes across, a text is scanned part by part. -/
theorem scan_append (h : Apart cs ds) : scan [] (cs ++ ds) = scan [] cs ++ scan [] ds :=
  ((layout_scan_nil cs).append (layout_scan_nil ds) h).scan_eq

theorem scan_gap_append (hgap : IsGap gap) (cs : List Char) : scan [] (gap ++ cs) = scan [] cs :=
  ((layout_scan_nil cs).gap_append hgap).scan_eq

end Dpll.NnfToken
