import Dpll.Nnf.Reader
import Dpll.Proofs.Nnf.Naming
import Dpll.Proofs.Nnf.Token

/-! The reader of formulas against its grammar. Every state of the reader says what it still needs:
the rest of a formula that has begun, and then a closing parenthesis for every operator that waits
(`NnfState.Completes`). One token brings this need forward or shows that nothing meets it
(`NnfState.completes_cons_iff`), so a run succeeds exactly on the tokens that meet it. Names are
numbered by their first occurrences (`Naming.Numbers`). -/

namespace Dpll

namespace Nnf

/-- The grammar `F := NAME | ( and F F ) | ( or F F ) | ( not NAME )`: the tokens spell the
formula. A name is any token that is not a parenthesis. -/
inductive Spelled : Nnf String → List NnfToken → Prop where
  | var (name : String) : Spelled (.var name) [.word name]
  | and {l r : Nnf String} {ts us : List NnfToken} : Spelled l ts → Spelled r us →
      Spelled (.and l r) (.leftParen :: .word "and" :: (ts ++ us ++ [.rightParen]))
  | or {l r : Nnf String} {ts us : List NnfToken} : Spelled l ts → Spelled r us →
      Spelled (.or l r) (.leftParen :: .word "or" :: (ts ++ us ++ [.rightParen]))
  | neg (name : String) : Spelled (.neg name) [.leftParen, .word "not", .word name, .rightParen]

/-- The formula as it is written. -/
def tokens : Nnf String → List NnfToken
  | .var name => [.word name]
  | .neg name => [.leftParen, .word "not", .word name, .rightParen]
  | .and l r => .leftParen :: .word "and" :: (l.tokens ++ r.tokens ++ [.rightParen])
  | .or l r => .leftParen :: .word "or" :: (l.tokens ++ r.tokens ++ [.rightParen])

variable {f : Nnf String} {ts : List NnfToken}

theorem spelled_iff : f.Spelled ts ↔ ts = f.tokens := by
  constructor
  · intro h
    induction h with
    | var | neg => rfl
    | and _ _ ihl ihr | or _ _ ihl ihr => rw [ihl, ihr, tokens]
  · rintro rfl
    induction f with
    | var name => exact .var name
    | neg name => exact .neg name
    | and l r ihl ihr => exact .and ihl ihr
    | or l r ihl ihr => exact .or ihl ihr

theorem word_mem_tokens {name : String} (h : name ∈ f.leaves) : .word name ∈ f.tokens := by
  induction f with
  | var x | neg x => simp [List.mem_singleton.mp h, tokens]
  | and l r ihl ihr | or l r ihl ihr =>
    have hparts := (List.mem_append.mp h).imp ihl ihr
    simp [tokens, hparts]

end Nnf

namespace NnfState

variable {f g : Nnf String} {token : NnfToken} {ts : List NnfToken} {pending : List Pending}
  {position : Nat}

/-- After `g` the tokens close the operators that wait, and `f` is the whole formula. -/
def Closes : List Pending → Nnf String → List NnfToken → Nnf String → Prop
  | [], g, ts, f => ts = [] ∧ f = g
  | .left op :: pending, g, ts, f =>
    ∃ r rest, ts = r.tokens ++ .rightParen :: rest ∧ Closes pending (op.join g r) rest f
  | .right op l :: pending, g, ts, f =>
    ∃ rest, ts = .rightParen :: rest ∧ Closes pending (op.join l g) rest f

/-- The tokens are what is due in a state, and `f` is the whole formula. -/
def Completes : NnfState → List NnfToken → Nnf String → Prop
  | formula pending, ts, f => ∃ g rest, ts = g.tokens ++ rest ∧ Closes pending g rest f
  | operator pending, ts, f =>
    ∃ g rest, .leftParen :: ts = g.tokens ++ rest ∧ Closes pending g rest f
  | negated pending, ts, f =>
    ∃ name rest, ts = .word name :: .rightParen :: rest ∧ Closes pending (.neg name) rest f
  | closing g pending, ts, f => ∃ rest, ts = .rightParen :: rest ∧ Closes pending g rest f

end NnfState

/-- Nothing is due once a formula is complete. -/
def NnfProgress.Completes : NnfProgress → List NnfToken → Nnf String → Prop
  | .due s, ts, f => s.Completes ts f
  | .complete g, ts, f => ts = [] ∧ f = g

namespace NnfState

theorem completes_supply :
    (NnfProgress.supply g pending).Completes ts f ↔ Closes pending g ts f := by
  match pending with
  | [] => rfl
  | .left op :: pending =>
    constructor
    · rintro ⟨r, _, rfl, rest, rfl, h⟩
      exact ⟨r, rest, rfl, h⟩
    · rintro ⟨r, rest, rfl, h⟩
      exact ⟨r, _, rfl, rest, rfl, h⟩
  | .right op l :: pending => rfl

theorem not_completes_nil (s : NnfState) : ¬ s.Completes [] f := by
  cases s with
  | formula | operator =>
    rintro ⟨g, rest, h, -⟩
    cases g <;> simp [Nnf.tokens] at h
  | negated => rintro ⟨name, rest, h, -⟩; cases h
  | closing => rintro ⟨rest, h, -⟩; cases h

/-- An operator of two formulas is due in full once its name is read. -/
theorem completes_operator (op : Connective)
    (h : ∀ {g : Nnf String} {rest : List NnfToken}, .leftParen :: token :: ts = g.tokens ++ rest ↔
      ∃ l r, g = op.join l r ∧ ts = l.tokens ++ (r.tokens ++ .rightParen :: rest)) :
    (operator pending).Completes (token :: ts) f ↔
      (formula (.left op :: pending)).Completes ts f := by
  constructor
  · rintro ⟨g, rest, hts, hc⟩
    obtain ⟨l, r, rfl, rfl⟩ := h.mp hts
    exact ⟨l, _, rfl, r, rest, rfl, hc⟩
  · rintro ⟨l, _, hts, r, rest, rfl, hc⟩
    exact ⟨op.join l r, rest, h.mpr ⟨l, r, rfl, hts⟩, hc⟩

/-- A token is taken in exactly if something that begins with it is due. -/
theorem completes_cons_iff (s : NnfState) (position : Nat) : s.Completes (token :: ts) f ↔
    ∃ p, s.step position token = .ok p ∧ p.Completes ts f := by
  fun_cases NnfState.step position s token with
  | case1 => simp [NnfProgress.Completes, Completes]
  | case2 =>
    simp only [reduceCtorEq, false_and, exists_false, iff_false]
    rintro ⟨g, rest, h, -⟩
    cases g <;> simp [Nnf.tokens] at h
  | case3 pending name =>
    simp only [Except.ok.injEq, exists_eq_left', completes_supply]
    constructor
    · rintro ⟨g, rest, h, hc⟩
      cases g <;> simp [Nnf.tokens] at h
      rwa [h.1, h.2]
    · exact fun hc => ⟨.var name, ts, rfl, hc⟩
  | case4 pending =>
    simp only [Except.ok.injEq, exists_eq_left']
    refine completes_operator .and fun {g rest} => ?_
    cases g <;> simp [Nnf.tokens, Connective.join, and_assoc]
  | case5 pending =>
    simp only [Except.ok.injEq, exists_eq_left']
    refine completes_operator .or fun {g rest} => ?_
    cases g <;> simp [Nnf.tokens, Connective.join, and_assoc]
  | case6 pending =>
    simp only [Except.ok.injEq, exists_eq_left']
    constructor
    · rintro ⟨g, rest, h, hc⟩
      cases g <;> simp [Nnf.tokens] at h
      exact ⟨_, rest, h, hc⟩
    · rintro ⟨name, rest, rfl, hc⟩
      exact ⟨.neg name, rest, rfl, hc⟩
  | case7 _ pending hand hor hnot =>
    simp only [reduceCtorEq, false_and, exists_false, iff_false]
    rintro ⟨g, rest, h, -⟩
    cases g <;> simp [Nnf.tokens] at h
    · exact hnot h.1
    · exact hand h.1
    · exact hor h.1
  | case8 pending name =>
    simp [NnfProgress.Completes, Completes, and_assoc]
  | case9 _ pending hword =>
    simp only [reduceCtorEq, false_and, exists_false, iff_false]
    rintro ⟨name, rest, h, -⟩
    exact hword name (List.cons.inj h).1
  | case10 =>
    simp [completes_supply, Completes]
  | case11 _ g pending hparen =>
    simp only [reduceCtorEq, false_and, exists_false, iff_false]
    rintro ⟨rest, h, -⟩
    exact hparen (List.cons.inj h).1

theorem run_eq_ok_iff (position : Nat) (s : NnfState) :
    s.run position ts = .ok f ↔ s.Completes ts f := by
  induction ts generalizing s position with
  | nil => simp [run, not_completes_nil]
  | cons token ts ih =>
    rw [completes_cons_iff s position, run]
    split
    · next e he => simp [he]
    · next s' hs => simp [hs, ih, NnfProgress.Completes]
    · next g hg =>
      simp only [hg, Except.ok.injEq, exists_eq_left', NnfProgress.Completes, List.isEmpty_iff]
      split <;> simp_all [eq_comm]

end NnfState

theorem Nnf.ofTokens_eq_ok_iff {f : Nnf String} {ts : List NnfToken} :
    ofTokens ts = .ok f ↔ f.Spelled ts := by
  rw [ofTokens, NnfState.run_eq_ok_iff, spelled_iff]
  constructor
  · rintro ⟨g, _, rfl, rfl, rfl⟩
    exact List.append_nil _
  · rintro rfl
    exact ⟨f, [], (List.append_nil _).symm, rfl, rfl⟩

theorem Nnf.Spelled.unique {f g : Nnf String} {ts : List NnfToken} (hf : f.Spelled ts)
    (hg : g.Spelled ts) : f = g :=
  Except.ok.inj ((ofTokens_eq_ok_iff.mpr hf).symm.trans (ofTokens_eq_ok_iff.mpr hg))

/-- The operators' words are names where a formula or a variable is due. -/
example : Nnf.ofTokens (NnfToken.ofText "(or and (not not))") =
    .ok (.or (.var "and") (.neg "not")) := by
  decide

namespace NnfTree

theorem read_eq_ok {text : String} {tree : NnfTree} : read text = .ok tree ↔
    ∃ f : Nnf String, f.Spelled (NnfToken.ofText text) ∧ ofNames f = tree := by
  rw [read]
  constructor
  · intro h
    split at h
    · cases h
    · next f hf => exact ⟨f, Nnf.ofTokens_eq_ok_iff.mp hf, Except.ok.inj h⟩
  · rintro ⟨f, hf, rfl⟩
    rw [Nnf.ofTokens_eq_ok_iff.mpr hf]

theorem read_of_ofText {text : String} {f : Nnf String} {tree : NnfTree}
    (htext : NnfToken.ofText text = f.tokens) (htree : ofNames f = tree) : read text = .ok tree :=
  read_eq_ok.mpr ⟨f, Nnf.spelled_iff.mpr htext, htree⟩

/-- A text with two variables. -/
theorem read_or_not : read "(or a (not b))" =
    .ok ⟨.or (.var ⟨0⟩) (.neg ⟨1⟩), ⟨#[some "a", some "b"]⟩⟩ :=
  read_of_ofText (f := .or (.var "a") (.neg "b")) rfl (ofNames_eq_iff.mpr ⟨rfl, rfl⟩)

/-- A text is read exactly if its tokens, parentheses by themselves and words between blanks, spell
a formula, which is the only one they spell. The tree has its shape; the table lists the names by
first occurrence, each once, and every leaf has the position of its own name. -/
theorem read_eq_ok_iff_spelled (text : String) :
    let tokens := (Text.words (NnfToken.pad text.toList)).map NnfToken.ofWord
    (∀ f g : Nnf String, f.Spelled tokens → g.Spelled tokens → f = g) ∧
      ∀ tree, read text = .ok tree ↔ ∃ f : Nnf String, f.Spelled tokens ∧
        tree.table.names.toList = f.leaves.eraseDups.map some ∧
        tree.root = f.map (Naming.index f.leaves) ∧
        (tree.table.size ≤ 2 ^ 32 → tree.root.map tree.table.name? = f.map some) := by
  intro tokens
  have htokens : NnfToken.ofText text = tokens := NnfToken.ofText_eq text
  refine ⟨fun f g hf hg => hf.unique hg, fun tree => ?_⟩
  rw [read_eq_ok, htokens]
  refine exists_congr fun f => and_congr_right fun _ => ?_
  constructor
  · rintro rfl
    obtain ⟨htable, hroot⟩ := ofNames_eq_iff.mp (rfl : ofNames f = ofNames f)
    exact ⟨htable, hroot, map_name?_ofNames⟩
  · rintro ⟨htable, hroot, -⟩
    exact ofNames_eq_iff.mpr ⟨htable, hroot⟩

/-- A name that is met again keeps its variable. -/
theorem read_eq_ok_iff_spelled_again : ∃ tree, read "(and b (or a (not b)))" = .ok tree ∧
    tree.table.names.toList = [some "b", some "a"] ∧
    tree.root = .and (.var ⟨0⟩) (.or (.var ⟨1⟩) (.neg ⟨0⟩)) ∧
    tree.root.map tree.table.name? =
      .and (.var (some "b")) (.or (.var (some "a")) (.neg (some "b"))) := by
  let f : Nnf String := .and (.var "b") (.or (.var "a") (.neg "b"))
  obtain ⟨hunique, hread⟩ := read_eq_ok_iff_spelled "(and b (or a (not b)))"
  have hspelled : f.Spelled ((Text.words (NnfToken.pad "(and b (or a (not b)))".toList)).map
      NnfToken.ofWord) := Nnf.spelled_iff.mpr (by decide)
  have htree : read "(and b (or a (not b)))" = .ok (ofNames f) :=
    read_eq_ok.mpr ⟨f, NnfToken.ofText_eq _ ▸ hspelled, rfl⟩
  obtain ⟨g, hg, hnames, hroot, hname⟩ := (hread _).mp htree
  obtain rfl := hunique f g hspelled hg
  have hsize : (ofNames f).table.size ≤ 2 ^ 32 := by
    rw [VariableTable.size, ← Array.length_toList, hnames]
    decide
  exact ⟨_, htree, hnames, hroot, hname hsize⟩

end NnfTree

end Dpll
