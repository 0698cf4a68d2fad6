import Dpll.Nnf.Token
import Dpll.Proofs.Text.Words

/-! The tokens of a formula are the words of its text once every parenthesis stands between blanks
(`NnfToken.ofText_eq`). -/

namespace Dpll.NnfToken

variable {run cs : List Char} {c : Char}

/-- The text with a blank on either side of every parenthesis. -/
def pad (cs : List Char) : List Char :=
  cs.flatMap fun c => if c = '(' ∨ c = ')' then [' ', c, ' '] else [c]

/-- The token that a word is. -/
def ofWord : List Char → NnfToken
  | ['('] => leftParen
  | [')'] => rightParen
  | cs => word (String.ofList cs)

/-- Whether a character can stand in a run: it is neither blank nor a parenthesis. -/
def IsPlain (c : Char) : Prop := Text.isBlank c = false ∧ c ≠ '(' ∧ c ≠ ')'

theorem ofWord_of_isPlain (h : ∀ c ∈ cs, IsPlain c) : ofWord cs = word (String.ofList cs) := by
  unfold ofWord
  split
  · exact absurd rfl (h '(' (List.mem_singleton_self _)).2.1
  · exact absurd rfl (h ')' (List.mem_singleton_self _)).2.2
  · rfl

theorem ofRun_eq (h : ∀ c ∈ cs, IsPlain c) : ofRun cs = (Text.words cs).map ofWord := by
  cases cs with
  | nil => rfl
  | cons c cs =>
    rw [Text.words_eq_singleton (fun x hx => (h x hx).1) (List.cons_ne_nil c cs),
      List.map_singleton, ofWord_of_isPlain h]
    rfl

theorem pad_cons_paren (hc : c = '(' ∨ c = ')') : pad (c :: cs) = ' ' :: c :: ' ' :: pad cs := by
  simp [pad, hc]

theorem pad_cons (hc : ¬ (c = '(' ∨ c = ')')) : pad (c :: cs) = c :: pad cs := by
  simp [pad, hc]

/-- A parenthesis between blanks is a word by itself. -/
theorem words_append_paren (hc : c = '(' ∨ c = ')') :
    Text.words (run ++ ' ' :: c :: ' ' :: cs) = Text.words run ++ [c] :: Text.words cs := by
  have hparen : ∀ x ∈ [c], Text.isBlank x = false := by
    rintro x hx
    rw [List.mem_singleton.mp hx]
    rcases hc with rfl | rfl <;> rfl
  have hsplit := Text.words_append_cons [c] cs (c := ' ') rfl
  rw [Text.words_append_cons _ _ rfl, ← List.singleton_append, hsplit,
    Text.words_eq_singleton hparen (List.cons_ne_nil c []), List.singleton_append]

theorem scan_eq (hrun : ∀ c ∈ run, IsPlain c) (cs : List Char) :
    scan run cs = (Text.words (run.reverse ++ pad cs)).map ofWord := by
  induction cs generalizing run with
  | nil =>
    rw [pad, List.flatMap_nil, List.append_nil]
    exact ofRun_eq fun c hc => hrun c (List.mem_reverse.mp hc)
  | cons c cs ih =>
    have hofRun := ofRun_eq fun c hc => hrun c (List.mem_reverse.mp hc)
    have hnext : scan [] cs = (Text.words (pad cs)).map ofWord := ih (by simp)
    rw [scan]
    split
    · next hc =>
      rw [hofRun, hnext, pad_cons_paren (.inl hc), words_append_paren (.inl hc), hc]
      simp [ofWord]
    · next hleft =>
      split
      · next hc =>
        rw [hofRun, hnext, pad_cons_paren (.inr hc), words_append_paren (.inr hc), hc]
        simp [ofWord]
      · next hright =>
        rw [pad_cons (by simp [hleft, hright])]
        split
        · next hblank =>
          rw [hofRun, hnext, Text.words_append_cons _ _ hblank, List.map_append]
        · next hblank =>
          have hplain : IsPlain c := ⟨Bool.eq_false_iff.mpr hblank, hleft, hright⟩
          rw [ih (List.forall_mem_cons.mpr ⟨hplain, hrun⟩), List.reverse_cons, List.append_assoc]
          rfl

theorem ofText_eq (text : String) : ofText text = (Text.words (pad text.toList)).map ofWord :=
  scan_eq (by simp) text.toList

theorem isBlank_of_word_mem_ofText {text name : String} (h : word name ∈ ofText text)
    (hc : c ∈ name.toList) : Text.isBlank c = false := by
  rw [ofText_eq] at h
  obtain ⟨cs, hcs, hword⟩ := List.mem_map.mp h
  unfold ofWord at hword
  split at hword
  · cases hword
  · cases hword
  · obtain rfl := word.inj hword
    rw [String.toList_ofList] at hc
    exact Text.isBlank_of_mem_words hcs hc

end Dpll.NnfToken
