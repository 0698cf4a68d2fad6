import Dpll.Proofs.Nnf.Grammar

/-! Where a text is refused. A list of tokens is a formula, or could be completed to one, or goes on
after one, or has a first token after which nothing could complete it; it is only one of these
(`Nnf.Standing.unique`), since no formula begins with another one. The reader meets the four cases in
the same order: whatever state it is in, something completes it (`NnfState.exists_completes`), so it
refuses a token exactly where hope ends (`NnfState.exists_standing`). -/

namespace Dpll

namespace Nnf

/-- The tokens spell some formula. -/
def Sentence (ts : List NnfToken) : Prop := ∃ f : Nnf String, f.Spelled ts

section

variable (L : List NnfToken → Prop)

/-- The tokens are a prefix of something in `L`. -/
def Begins (ts : List NnfToken) : Prop := ∃ us, L (ts ++ us)

/-- The tokens are a proper prefix of something in `L`. -/
def Unfinished (ts : List NnfToken) : Prop := ∃ us, us ≠ [] ∧ L (ts ++ us)

end

/-- How a list of tokens stands to a language. -/
inductive Standing where
  /-- It belongs to the language. -/
  | sentence
  /-- It is a proper prefix of something in the language. -/
  | unfinished
  /-- The tokens of `front` belong to the language, but others follow. -/
  | overlong (front rest : List NnfToken)
  /-- The tokens of `front` are a proper prefix, but with `token` they are no prefix at all. -/
  | hopeless (front : List NnfToken) (token : NnfToken) (rest : List NnfToken)

namespace Standing

/-- The tokens stand so to the language. -/
def Fits (L : List NnfToken → Prop) (ts : List NnfToken) : Standing → Prop
  | sentence => L ts
  | unfinished => Unfinished L ts
  | overlong front rest => ts = front ++ rest ∧ L front ∧ rest ≠ []
  | hopeless front token rest =>
    ts = front ++ token :: rest ∧ Unfinished L front ∧ ¬Begins L (front ++ [token])

/-- What a reader has to answer: after the opening parenthesis of a formula only an operator can be
wrong. -/
def Answers {α : Type} : Standing → Except NnfError α → Prop
  | sentence, answer => ∃ a, answer = .ok a
  | unfinished, answer => answer = .error .unexpectedEnd
  | overlong _ rest, answer => answer = .error (.trailingTokens rest.length)
  | hopeless front token _, answer =>
    if front.getLast? = some .leftParen then
      answer = .error (.unsupportedOperator front.length token.text)
    else ∃ expected, answer = .error (.unexpectedToken front.length expected token.text)

theorem Answers.map {α β : Type} {s : Standing} {answer : Except NnfError α} {f : α → β}
    (h : s.Answers answer) : s.Answers (answer.map f) := by
  cases s with
  | sentence =>
    obtain ⟨a, rfl⟩ := h
    exact ⟨f a, rfl⟩
  | unfinished | overlong =>
    obtain rfl := h
    rfl
  | hopeless front token rest =>
    by_cases hop : front.getLast? = some .leftParen
    · simp only [Answers, if_pos hop] at h ⊢
      rw [h]
      rfl
    · simp only [Answers, if_neg hop] at h ⊢
      obtain ⟨expected, rfl⟩ := h
      exact ⟨expected, rfl⟩

/-- The standing with tokens put in front. -/
def after (ts : List NnfToken) : Standing → Standing
  | sentence => sentence
  | unfinished => unfinished
  | overlong front rest => overlong (ts ++ front) rest
  | hopeless front token rest => hopeless (ts ++ front) token rest

variable {L M : List NnfToken → Prop} {t : NnfToken} {ts us vs : List NnfToken} {s : Standing}

theorem after_nil : s.after [] = s := by
  cases s <;> rfl

theorem after_after : (s.after us).after ts = s.after (ts ++ us) := by
  cases s <;> simp [after]

/-- One token more in front, for a language whose members beginning with it are known. -/
theorem Fits.cons (h : ∀ us, L (t :: us) ↔ M us) (hs : s.Fits M ts) :
    (s.after [t]).Fits L (t :: ts) := by
  cases s with
  | sentence => exact (h ts).mpr hs
  | unfinished =>
    obtain ⟨us, hne, hM⟩ := hs
    exact ⟨us, hne, (h _).mpr hM⟩
  | overlong front rest =>
    obtain ⟨rfl, hM, hne⟩ := hs
    exact ⟨rfl, (h _).mpr hM, hne⟩
  | hopeless front token rest =>
    obtain ⟨rfl, ⟨us, hne, hM⟩, hnot⟩ := hs
    exact ⟨rfl, ⟨us, hne, (h _).mpr hM⟩, fun ⟨vs, hL⟩ => hnot ⟨vs, (h _).mp hL⟩⟩

section

/-! ### Languages in which nothing is a proper prefix of anything else -/

variable (hL : ∀ us vs, L us → L (us ++ vs) → vs = [])
include hL

theorem Fits.eq_sentence (h : L ts) (hs : s.Fits L ts) : s = sentence := by
  cases s with
  | sentence => rfl
  | unfinished =>
    obtain ⟨us, hne, hus⟩ := hs
    exact absurd (hL _ _ h hus) hne
  | overlong front rest =>
    obtain ⟨rfl, hfront, hne⟩ := hs
    exact absurd (hL _ _ hfront h) hne
  | hopeless front token rest =>
    obtain ⟨rfl, -, hnot⟩ := hs
    exact absurd ⟨rest, by simpa using h⟩ hnot

theorem Fits.eq_unfinished (h : Unfinished L ts) (hs : s.Fits L ts) : s = unfinished := by
  obtain ⟨us, hne, hus⟩ := h
  cases s with
  | sentence => exact absurd (hL _ _ hs hus) hne
  | unfinished => rfl
  | overlong front rest =>
    obtain ⟨rfl, hfront, -⟩ := hs
    have hrest := hL front (rest ++ us) hfront (by simpa using hus)
    exact absurd (List.append_eq_nil_iff.mp hrest).2 hne
  | hopeless front token rest =>
    obtain ⟨rfl, -, hnot⟩ := hs
    exact absurd ⟨rest ++ us, by simpa using hus⟩ hnot

theorem Fits.eq_overlong (h : L us) (hvs : vs ≠ []) (hs : s.Fits L (us ++ vs)) :
    s = overlong us vs := by
  cases s with
  | sentence => exact absurd (hL _ _ h hs) hvs
  | unfinished => exact absurd (Fits.eq_unfinished hL hs (s := overlong us vs) ⟨rfl, h, hvs⟩) nofun
  | overlong front rest =>
    obtain ⟨heq, hfront, -⟩ := hs
    -- one of the two members is a prefix of the other
    rcases List.append_eq_append_iff.mp heq with ⟨ws, rfl, rfl⟩ | ⟨ws, rfl, rfl⟩
    · obtain rfl := hL _ _ h hfront
      simp
    · obtain rfl := hL _ _ hfront h
      simp
  | hopeless front token rest =>
    obtain ⟨heq, ⟨xs, hne, hxs⟩, hnot⟩ := hs
    rcases List.append_eq_append_iff.mp heq with ⟨ws, rfl, -⟩ | ⟨ws, rfl, hws⟩
    · have hnil := hL us (ws ++ xs) h (by simpa using hxs)
      exact absurd (List.append_eq_nil_iff.mp hnil).2 hne
    · cases ws with
      | nil => exact absurd (hL front xs (by simpa using h) hxs) hne
      | cons w ws =>
        obtain ⟨rfl, -⟩ := List.cons.inj hws
        exact absurd ⟨ws, by simpa using h⟩ hnot

theorem Fits.eq_hopeless (h : Unfinished L us) (ht : ¬Begins L (us ++ [t]))
    (hs : s.Fits L (us ++ t :: vs)) : s = hopeless us t vs := by
  have hself : (hopeless us t vs).Fits L (us ++ t :: vs) := ⟨rfl, h, ht⟩
  cases s with
  | sentence => exact (hself.eq_sentence hL hs).symm
  | unfinished => exact (hself.eq_unfinished hL hs).symm
  | overlong front rest =>
    obtain ⟨heq, hfront, hne⟩ := hs
    exact ((heq ▸ hself).eq_overlong hL hfront hne).symm
  | hopeless front token rest =>
    obtain ⟨heq, ⟨xs, -, hxs⟩, hnot⟩ := hs
    obtain ⟨ys, -, hys⟩ := h
    -- the longer of the two prefixes would go on with the token that ends hope for the shorter
    rcases List.append_eq_append_iff.mp heq with ⟨ws, rfl, hws⟩ | ⟨ws, rfl, hws⟩
    · cases ws with
      | nil => simp_all
      | cons w ws =>
        obtain ⟨rfl, -⟩ := List.cons.inj hws
        exact absurd ⟨ws ++ xs, by simpa using hxs⟩ ht
    · cases ws with
      | nil => simp_all
      | cons w ws =>
        obtain ⟨rfl, -⟩ := List.cons.inj hws
        exact absurd ⟨ws ++ ys, by simpa using hys⟩ hnot

/-- Tokens stand in one way only to such a language. -/
theorem unique {s' : Standing} (hs : s.Fits L ts) (hs' : s'.Fits L ts) : s = s' := by
  cases s' with
  | sentence => exact hs.eq_sentence hL hs'
  | unfinished => exact hs.eq_unfinished hL hs'
  | overlong front rest =>
    obtain ⟨rfl, hfront, hne⟩ := hs'
    exact hs.eq_overlong hL hfront hne
  | hopeless front token rest =>
    obtain ⟨rfl, hfront, hnot⟩ := hs'
    exact hs.eq_hopeless hL hfront hnot

end

end Standing

end Nnf

open Nnf

namespace NnfState

variable {f g : Nnf String} {ts us vs : List NnfToken}

/-- What is due in a state, and completes a formula. -/
def Due (s : NnfState) (ts : List NnfToken) : Prop := ∃ f, s.Completes ts f

/-- An opening parenthesis was the last token. -/
def isOperator : NnfState → Bool
  | operator _ => true
  | _ => false

theorem exists_closes (pending : List Pending) (g : Nnf String) :
    ∃ ts f, Closes pending g ts f := by
  induction pending generalizing g with
  | nil => exact ⟨[], g, rfl, rfl⟩
  | cons p pending ih =>
    cases p with
    | left op =>
      obtain ⟨ts, f, h⟩ := ih (op.join g (.var "a"))
      exact ⟨_, f, .var "a", ts, rfl, h⟩
    | right op l =>
      obtain ⟨ts, f, h⟩ := ih (op.join l g)
      exact ⟨_, f, ts, rfl, h⟩

/-- Whatever is due can be supplied. -/
theorem exists_completes (s : NnfState) : ∃ ts, s.Due ts := by
  cases s with
  | formula pending =>
    obtain ⟨ts, f, h⟩ := exists_closes pending (.var "a")
    exact ⟨_, f, .var "a", ts, rfl, h⟩
  | operator pending =>
    obtain ⟨ts, f, h⟩ := exists_closes pending (.neg "a")
    exact ⟨_, f, .neg "a", ts, rfl, h⟩
  | negated pending =>
    obtain ⟨ts, f, h⟩ := exists_closes pending (.neg "a")
    exact ⟨_, f, "a", ts, rfl, h⟩
  | closing g pending =>
    obtain ⟨ts, f, h⟩ := exists_closes pending g
    exact ⟨_, f, ts, rfl, h⟩

theorem unfinished (s : NnfState) : Unfinished s.Due [] := by
  obtain ⟨ts, f, h⟩ := s.exists_completes
  refine ⟨ts, ?_, f, h⟩
  rintro rfl
  exact s.not_completes_nil h

/-- What completes a formula is no proper prefix of something that does. -/
theorem due_append (s : NnfState) (h : s.Due us) (h' : s.Due (us ++ vs)) : vs = [] := by
  induction us generalizing s with
  | nil =>
    obtain ⟨f, h⟩ := h
    exact absurd h s.not_completes_nil
  | cons t us ih =>
    obtain ⟨f, h⟩ := h
    obtain ⟨g, h'⟩ := h'
    obtain ⟨p, hp, hf⟩ := (s.completes_cons_iff 0).mp h
    obtain ⟨q, hq, hg⟩ := (s.completes_cons_iff 0).mp h'
    obtain rfl := Except.ok.inj (hp.symm.trans hq)
    cases p with
    | due s' => exact ih s' ⟨f, hf⟩ ⟨g, hg⟩
    | complete e => exact (List.append_eq_nil_iff.mp hg.1).2

theorem not_begins_of_step {s : NnfState} {position : Nat} {t : NnfToken} {e : NnfError}
    (h : s.step position t = .error e) : ¬Begins s.Due [t] := by
  rintro ⟨us, f, hf⟩
  obtain ⟨p, hp, -⟩ := (s.completes_cons_iff position).mp hf
  exact nomatch h.symm.trans hp

/-- Only an opening parenthesis makes an operator due. -/
theorem isOperator_of_step {s s' : NnfState} {position : Nat} {t : NnfToken}
    (h : s.step position t = .ok (.due s')) : s'.isOperator = true ↔ t = .leftParen := by
  have hsupply {g : Nnf String} {pending : List Pending}
      (hg : NnfProgress.supply g pending = .due s') : s'.isOperator = false := by
    match pending, hg with
    | .left op :: _, rfl => rfl
    | .right op l :: _, rfl => rfl
  revert h
  fun_cases NnfState.step position s t <;> intro h <;> simp at h
  all_goals first
    | simp [hsupply h]
    | simp [← h, isOperator]

/-- A refusal names the token and its position. -/
theorem error_of_step {s : NnfState} {position : Nat} {t : NnfToken} {e : NnfError}
    (h : s.step position t = .error e) :
    if s.isOperator = true then e = .unsupportedOperator position t.text
    else ∃ expected, e = .unexpectedToken position expected t.text := by
  revert h
  fun_cases NnfState.step position s t <;> intro h <;> simp at h
  all_goals simp [isOperator, ← h]

/-- From any state, the answer is that for the way the tokens stand to what is due. -/
theorem exists_standing (s : NnfState) (front : List NnfToken)
    (hs : s.isOperator = true ↔ front.getLast? = some .leftParen) (ts : List NnfToken) :
    ∃ v : Standing, v.Fits s.Due ts ∧ (v.after front).Answers (s.run front.length ts) := by
  induction ts generalizing s front with
  | nil => exact ⟨.unfinished, s.unfinished, rfl⟩
  | cons t ts ih =>
    rw [run]
    split
    · next e he =>
      refine ⟨.hopeless [] t ts, ⟨rfl, s.unfinished, not_begins_of_step he⟩, ?_⟩
      have herror := error_of_step he
      simp only [Standing.after, Standing.Answers, List.append_nil, ← hs]
      split
      · next hop =>
        rw [if_pos hop] at herror
        rw [herror]
      · next hop =>
        rw [if_neg hop] at herror
        obtain ⟨expected, rfl⟩ := herror
        exact ⟨expected, rfl⟩
    · next s' hs' =>
      have hfront : s'.isOperator = true ↔ (front ++ [t]).getLast? = some .leftParen := by
        rw [isOperator_of_step hs', List.getLast?_concat, Option.some.injEq]
      obtain ⟨v, hv, hanswer⟩ := ih s' (front ++ [t]) hfront
      refine ⟨v.after [t], hv.cons fun us => ?_, ?_⟩
      · simp [Due, s.completes_cons_iff front.length, hs', NnfProgress.Completes]
      · rwa [Standing.after_after, ← List.length_singleton (a := t), ← List.length_append]
    · next g hg =>
      have hdue (us : List NnfToken) : s.Due (t :: us) ↔ us = [] := by
        simp [Due, s.completes_cons_iff front.length, hg, NnfProgress.Completes]
      split
      · next hnil =>
        obtain rfl := List.isEmpty_iff.mp hnil
        exact ⟨.sentence, (hdue []).mpr rfl, g, rfl⟩
      · next hne =>
        refine ⟨.overlong [t] ts, ⟨rfl, (hdue []).mpr rfl, ?_⟩, rfl⟩
        simpa using hne

end NnfState

theorem Nnf.due_formula : (NnfState.formula []).Due = Sentence := by
  funext ts
  simp only [NnfState.Due, Sentence, ← ofTokens_eq_ok_iff, ofTokens, NnfState.run_eq_ok_iff]

namespace NnfTree

theorem read_eq_map (text : String) :
    read text = (Nnf.ofTokens (NnfToken.ofText text)).map ofNames := by
  rw [read]
  cases Nnf.ofTokens (NnfToken.ofText text) <;> rfl

/-- The tokens of a text stand in exactly one way to the formulas, and the answer is the one for it:
a text is refused at its first token after which nothing could complete it, at its end if something
still could, or after its first formula. -/
theorem read_standing (text : String) :
    (∃! s : Standing, s.Fits Sentence (NnfToken.ofText text)) ∧
      ∀ s : Standing, s.Fits Sentence (NnfToken.ofText text) → s.Answers (read text) := by
  obtain ⟨s, hs, hanswer⟩ := (NnfState.formula []).exists_standing [] (by simp [NnfState.isOperator])
    (NnfToken.ofText text)
  have hfree (us vs : List NnfToken) (h : Sentence us) (h' : Sentence (us ++ vs)) : vs = [] := by
    rw [← Nnf.due_formula] at h h'
    exact (NnfState.formula []).due_append h h'
  rw [Nnf.due_formula] at hs
  have hunique (s' : Standing) (hs' : s'.Fits Sentence (NnfToken.ofText text)) : s' = s :=
    Standing.unique hfree hs' hs
  refine ⟨⟨s, hs, hunique⟩, fun s' hs' => ?_⟩
  obtain rfl := hunique s' hs'
  rw [Standing.after_nil] at hanswer
  rw [read_eq_map]
  exact hanswer.map

/-- What follows an opening parenthesis is refused as an operator. -/
theorem read_standing_xor : read "(xor a b)" = .error (.unsupportedOperator 1 "xor") := by
  have hnot : ¬Begins Sentence [.leftParen, .word "xor"] := by
    rintro ⟨us, f, hf⟩
    have hts := Nnf.spelled_iff.mp hf
    cases f <;> simp [Nnf.tokens] at hts
  have hunfinished : Unfinished Sentence [.leftParen] :=
    ⟨[.word "not", .word "a", .rightParen], by simp, .neg "a", .neg "a"⟩
  have hfits : (Standing.hopeless [.leftParen] (.word "xor")
      [.word "a", .word "b", .rightParen]).Fits Sentence (NnfToken.ofText "(xor a b)") :=
    ⟨by decide, hunfinished, hnot⟩
  exact (read_standing "(xor a b)").2 _ hfits

end NnfTree

end Dpll
