import Dpll.Proofs.Nnf
import Dpll.Proofs.Nnf.Grammar
import Dpll.Proofs.Nnf.Layout
import Dpll.Proofs.Text.Numeral
import Mathlib.Data.List.Nodup
import Std.Data.String.ToNat

/-! Chains of conjunctions, `(and a (and b … f))`, and their texts (`NnfTree.read_chainText`). There are
as many operators as one likes over a single variable (`NnfTree.chain`), and as many variables as one
likes (`NnfTree.row`), so they are where the indices of variables run out. -/

namespace Dpll

namespace Nnf

variable {α : Type u} {β : Type v} {as : List α} {f : Nnf α} {v : α → Bool}

/-- The conjunction of the variables, in order, and the formula. -/
def chain : List α → Nnf α → Nnf α
  | [], f => f
  | a :: as, f => and (var a) (chain as f)

theorem map_chain (g : α → β) (as : List α) (f : Nnf α) :
    (chain as f).map g = chain (as.map g) (f.map g) := by
  induction as with
  | nil => rfl
  | cons a as ih => rw [chain, map, ih, map, List.map_cons, chain]

theorem leaves_chain (as : List α) (f : Nnf α) : (chain as f).leaves = as ++ f.leaves := by
  induction as with
  | nil => rfl
  | cons a as ih => rw [chain, leaves, ih, leaves, List.singleton_append, List.cons_append]

theorem evaluate_chain :
    (chain as f).evaluate v = true ↔ (∀ a ∈ as, v a = true) ∧ f.evaluate v = true := by
  induction as with
  | nil => simp [chain]
  | cons a as ih =>
    rw [chain, evaluate, evaluate, Bool.and_eq_true, ih, List.forall_mem_cons, and_assoc]

theorem leaves_ne_nil (f : Nnf α) : f.leaves ≠ [] := by
  induction f with
  | var | neg => exact List.cons_ne_nil _ _
  | and l r ihl _ | or l r ihl _ => exact List.append_ne_nil_of_left_ne_nil ihl _

/-- The text of a chain that ends in what the text says. -/
def chainText : List String → String → String
  | [], text => text
  | name :: names, text => "(and " ++ name ++ " " ++ chainText names text ++ ")"

theorem layout_chainText {names : List String} {text : String} {f : Nnf String}
    (hnames : ∀ name ∈ names, (NnfToken.word name).IsLexeme)
    (h : NnfToken.Layout text.toList f.tokens) :
    NnfToken.Layout (chainText names text).toList (chain names f).tokens := by
  induction names with
  | nil => exact h
  | cons name names ih =>
    obtain ⟨hname, hnames⟩ := List.forall_mem_cons.mp hnames
    have hopen : NnfToken.Layout "(and ".toList [.leftParen, .word "and"] :=
      NnfToken.ofText_eq_iff.mp rfl
    have hclose : NnfToken.Layout ")".toList [.rightParen] := NnfToken.ofText_eq_iff.mp rfl
    have hspace : NnfToken.Apart name.toList (' ' :: (chainText names text).toList ++ ")".toList) :=
      NnfToken.apart_of_head (by simp [NnfToken.IsPlain, Text.isBlank, Text.blankRanges])
    have hlayout := hopen.append (.token hname hspace (.blank rfl ((ih hnames).append hclose
      (NnfToken.apart_of_head (by simp [NnfToken.IsPlain])))))
      (NnfToken.apart_of_getLast (by simp [NnfToken.IsPlain, Text.isBlank, Text.blankRanges]))
    simpa [chainText, chain, tokens, NnfToken.text] using hlayout

example : chainText ["a", "b"] "(not c)" = "(and a (and b (not c)))" := by decide

end Nnf

namespace NnfTree

variable {n : Nat}

theorem read_chainText {names : List String} {text : String} {f : Nnf String}
    (hnames : ∀ name ∈ names, (NnfToken.word name).IsLexeme)
    (h : NnfToken.Layout text.toList f.tokens) :
    read (Nnf.chainText names text) = .ok (ofNames (.chain names f)) :=
  read_of_ofText (NnfToken.ofText_eq_iff.mpr (Nnf.layout_chainText hnames h)) rfl

/-! ### One variable -/

/-- A chain of a single variable, `a`, that ends in the formula. -/
def chain (k : Nat) (f : Nnf Variable) : NnfTree := ⟨.chain (.replicate k ⟨0⟩) f, ⟨#[some "a"]⟩⟩

theorem eraseDups_eq_singleton {a : String} {names : List String} (hne : names ≠ [])
    (h : ∀ b ∈ names, b = a) : names.eraseDups = [a] := by
  obtain ⟨b, names, rfl⟩ := List.exists_cons_of_ne_nil hne
  obtain ⟨rfl, hnames⟩ := List.forall_mem_cons.mp h
  have hnone : names.filter (fun c => !c == b) = [] :=
    List.filter_eq_nil_iff.mpr fun c hc => by simp [hnames c hc]
  rw [List.eraseDups_cons, hnone, List.eraseDups_nil]

theorem ofNames_chain {f : Nnf String} (hf : ∀ name ∈ f.leaves, name = "a") (k : Nat) :
    ofNames (.chain (.replicate k "a") f) = chain k (f.map fun _ => ⟨0⟩) := by
  have hleaves : ∀ name ∈ (Nnf.chain (.replicate k "a") f).leaves, name = "a" := by
    intro name hname
    rw [Nnf.leaves_chain, List.mem_append] at hname
    exact hname.elim (fun h => (List.mem_replicate.mp h).2) (hf name)
  have hnames := eraseDups_eq_singleton (Nnf.leaves_ne_nil _) hleaves
  refine ofNames_eq_iff.mpr ⟨by rw [hnames]; rfl, ?_⟩
  have hindex : ∀ name ∈ (Nnf.chain (.replicate k "a") f).leaves,
      Naming.index (Nnf.chain (.replicate k "a") f).leaves name = ⟨0⟩ := by
    intro name hname
    rw [hleaves name hname, Naming.index, hnames]
    rfl
  rw [Nnf.map_congr hindex, Nnf.map_chain, List.map_replicate]
  rfl

theorem isLexeme_of_mem_replicate {k : Nat} :
    ∀ name ∈ List.replicate k "a", (NnfToken.word name).IsLexeme := by
  intro name hname
  rw [(List.mem_replicate.mp hname).2]
  exact ⟨by decide, by simp [NnfToken.IsPlain, Text.isBlank, Text.blankRanges]⟩

theorem read_chain_or_not (k : Nat) : read (Nnf.chainText (.replicate k "a") "(or a (not a))") =
    .ok (chain k (.or (.var ⟨0⟩) (.neg ⟨0⟩))) := by
  rw [@read_chainText _ _ (.or (.var "a") (.neg "a")) isLexeme_of_mem_replicate
    (NnfToken.ofText_eq_iff.mp rfl), ofNames_chain (by decide)]
  rfl

theorem evaluate_chain_or_not {v : Variable → Bool} (h : v ⟨0⟩ = true) (k : Nat) :
    (chain k (.or (.var ⟨0⟩) (.neg ⟨0⟩))).root.evaluate v = true := by
  refine Nnf.evaluate_chain.mpr ⟨fun a ha => ?_, by simp [Nnf.evaluate, h]⟩
  rwa [(List.mem_replicate.mp ha).2]

/-- The conjunction of `n + 1` variables, which are named by their numbers. -/
def row (n : Nat) : NnfTree :=
  ⟨(Nnf.chain (.range n) (.var n)).map fun i => ⟨UInt32.ofNat i⟩, .numbered (n + 1)⟩

/-- The text of this conjunction. -/
def rowText (n : Nat) : String :=
  Nnf.chainText ((List.range n).map fun i => toString (i + 1)) (toString (n + 1))

theorem evaluate_row {v : Variable → Bool} :
    (row n).root.evaluate v = true ↔ ∀ i < n + 1, v ⟨UInt32.ofNat i⟩ = true := by
  rw [row, Nnf.map_chain, Nnf.evaluate_chain, List.forall_mem_map, Nat.forall_lt_succ_right]
  simp only [List.mem_range]
  rfl

theorem isLexeme_toString (n : Nat) : (NnfToken.word (toString n)).IsLexeme := by
  have hword := Text.isWord_toString_nat n
  refine ⟨mt String.toList_eq_nil_iff.mpr hword.ne_nil, fun c hc => ⟨hword.isBlank_eq c hc, ?_⟩⟩
  rw [Text.toList_toString] at hc
  have hdigit := Text.isDigit_of_mem_toDigits hc
  constructor <;> rintro rfl <;> exact absurd hdigit (by decide)

theorem eraseDups_eq_self {names : List String} (h : names.Nodup) : names.eraseDups = names := by
  induction names with
  | nil => rfl
  | cons name names ih =>
    obtain ⟨hname, hnames⟩ := List.nodup_cons.mp h
    have hfilter : names.filter (fun c => !c == name) = names :=
      List.filter_eq_self.mpr fun c hc => by simpa using ne_of_mem_of_not_mem hc hname
    rw [List.eraseDups_cons, hfilter, ih hnames]

theorem ofNames_row (n : Nat) : ofNames (.chain ((List.range n).map fun i => toString (i + 1))
    (.var (toString (n + 1)))) = row n := by
  have hleaves : (Nnf.chain ((List.range n).map fun i => toString (i + 1))
      (.var (toString (n + 1)))).leaves = (List.range (n + 1)).map fun i => toString (i + 1) := by
    rw [Nnf.leaves_chain, List.range_succ, List.map_append]
    rfl
  have hnodup : ((List.range (n + 1)).map fun i => toString (i + 1)).Nodup :=
    List.nodup_range.map fun i j h => Nat.succ_inj.mp (Nat.repr_inj.mp h)
  refine ofNames_eq_iff.mpr ⟨?_, ?_⟩
  · rw [hleaves, eraseDups_eq_self hnodup, List.map_map]
    exact VariableTable.names_numbered (n + 1)
  · have hmap : Nnf.chain ((List.range n).map fun i => toString (i + 1)) (.var (toString (n + 1))) =
        (Nnf.chain (.range n) (.var n)).map fun i => toString (i + 1) := by
      rw [Nnf.map_chain]
      rfl
    rw [hleaves, hmap, Nnf.map_map]
    refine Nnf.map_congr fun i hi => ?_
    rw [Nnf.leaves_chain, Nnf.leaves, ← List.range_succ, List.mem_range] at hi
    have hindex := hnodup.idxOf_getElem i (by simpa using hi)
    rw [List.getElem_map, List.getElem_range] at hindex
    rw [Function.comp_apply, Naming.index, eraseDups_eq_self hnodup, hindex]

theorem read_rowText (n : Nat) : read (rowText n) = .ok (row n) := by
  have hnames : ∀ name ∈ (List.range n).map fun i => toString (i + 1),
      (NnfToken.word name).IsLexeme := by
    intro name hname
    obtain ⟨i, -, rfl⟩ := List.mem_map.mp hname
    exact isLexeme_toString (i + 1)
  have hlast := NnfToken.Layout.token (isLexeme_toString (n + 1)) (NnfToken.apart_of_head (by simp)) .nil
  rw [List.append_nil] at hlast
  exact (read_chainText (f := .var _) hnames hlast).trans (congrArg Except.ok (ofNames_row n))

end NnfTree

end Dpll
