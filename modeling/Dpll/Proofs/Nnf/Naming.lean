import Dpll.Nnf.Formula
import Mathlib.Algebra.Group.Nat.Defs
import Mathlib.Data.List.Basic

/-! The numbering of names. A name has the position of its first occurrence among the different
names of the formula, and later names do not change it (`Naming.index_append`). -/

namespace Dpll

namespace Nnf

variable {α : Type u} {β : Type v} {γ : Type w} {f : Nnf α}

/-- The formula with other variables in place of its own. -/
def map (g : α → β) : Nnf α → Nnf β
  | var a => var (g a)
  | neg a => neg (g a)
  | and l r => and (l.map g) (r.map g)
  | or l r => or (l.map g) (r.map g)

theorem map_congr {g g' : α → β} (h : ∀ a ∈ f.leaves, g a = g' a) : f.map g = f.map g' := by
  induction f with
  | var a => exact congrArg var (h a (List.mem_singleton_self a))
  | neg a => exact congrArg neg (h a (List.mem_singleton_self a))
  | and l r ihl ihr | or l r ihl ihr =>
    have hl := ihl fun a ha => h a (List.mem_append_left _ ha)
    have hr := ihr fun a ha => h a (List.mem_append_right _ ha)
    simp only [map, hl, hr]

theorem map_map (g : α → β) (g' : β → γ) (f : Nnf α) : (f.map g).map g' = f.map (g' ∘ g) := by
  induction f with
  | var | neg => rfl
  | and l r ihl ihr | or l r ihl ihr => simp only [map, ihl, ihr]

end Nnf

namespace Naming

variable {s : Naming} {names more : List String} {name : String}

/-- The variable of a name, the names being met in this order. -/
def index (names : List String) (name : String) : Variable :=
  ⟨UInt32.ofNat (names.eraseDups.idxOf name)⟩

/-- The names were met in this order. -/
structure Numbers (s : Naming) (names : List String) : Prop where
  table : s.table.names.toList = names.eraseDups.map some
  known (name : String) : s.known[name]? = if name ∈ names then some (index names name) else none

theorem index_append (more : List String) (h : name ∈ names) :
    index (names ++ more) name = index names name := by
  rw [index, List.eraseDups_append, List.idxOf_append_of_mem (List.mem_eraseDups.mpr h), index]

theorem eraseDups_append_self (h : name ∈ names) :
    (names ++ [name]).eraseDups = names.eraseDups := by
  simp [List.eraseDups_append, List.removeAll, h]

theorem eraseDups_append_new (h : name ∉ names) :
    (names ++ [name]).eraseDups = names.eraseDups ++ [name] := by
  simp [List.eraseDups_append, List.removeAll, h, List.eraseDups_cons]

theorem numbers_empty : empty.Numbers [] where
  table := rfl
  known name := by simp [empty]

namespace Numbers

theorem size (h : s.Numbers names) : s.table.size = names.eraseDups.length := by
  rw [VariableTable.size, ← Array.length_toList, h.table, List.length_map]

theorem intern (h : s.Numbers names) (name : String) :
    (s.intern name).1 = index (names ++ [name]) name ∧
      (s.intern name).2.Numbers (names ++ [name]) := by
  by_cases hmem : name ∈ names
  · have hknown := h.known name
    rw [if_pos hmem] at hknown
    have hindex : index (names ++ [name]) = index names := by
      funext x
      rw [index, eraseDups_append_self hmem, index]
    refine ⟨by simp [Naming.intern, hknown, hindex], ?_⟩
    simp only [Naming.intern, hknown]
    refine ⟨(eraseDups_append_self hmem).symm ▸ h.table, fun x => ?_⟩
    have hx : x ∈ names ++ [name] ↔ x ∈ names := by
      rw [List.mem_append, List.mem_singleton]
      exact or_iff_left_of_imp fun hx => hx ▸ hmem
    simp only [h.known x, hindex, hx]
  · have hknown := h.known name
    rw [if_neg hmem] at hknown
    have hnext : s.table.next = index (names ++ [name]) name := by
      have hmem' : name ∉ names.eraseDups := fun hn => hmem (List.mem_eraseDups.mp hn)
      rw [VariableTable.next, h.size, index, eraseDups_append_new hmem,
        List.idxOf_append_of_notMem hmem', List.idxOf_cons_self, Nat.add_zero]
    refine ⟨by simp [Naming.intern, hknown, hnext], ?_⟩
    simp only [Naming.intern, hknown]
    refine ⟨?_, fun x => ?_⟩
    · simp [VariableTable.push, h.table, eraseDups_append_new hmem]
    · rw [Std.HashMap.getElem?_insert, h.known x, hnext]
      by_cases hx : x ∈ names
      · have hne : name ≠ x := fun hn => hmem (hn ▸ hx)
        simp [hx, hne, index_append [name] hx]
      · by_cases hn : name = x
        · simp [hn]
        · simp [hx, hn, Ne.symm hn]

theorem internAll (h : s.Numbers names) (f : Nnf String) :
    (s.internAll f).1 = f.map (index (names ++ f.leaves)) ∧
      (s.internAll f).2.Numbers (names ++ f.leaves) := by
  induction f generalizing s names with
  | var name =>
    obtain ⟨hvar, hnumbers⟩ := h.intern name
    exact ⟨congrArg Nnf.var hvar, hnumbers⟩
  | neg name =>
    obtain ⟨hvar, hnumbers⟩ := h.intern name
    exact ⟨congrArg Nnf.neg hvar, hnumbers⟩
  | and l r ihl ihr | or l r ihl ihr =>
    obtain ⟨hl, hnumbersl⟩ := ihl h
    obtain ⟨hr, hnumbersr⟩ := ihr hnumbersl
    rw [List.append_assoc] at hr hnumbersr
    -- the names of the right part do not change the variables of the left one
    have hkeep : l.map (index (names ++ l.leaves)) =
        l.map (index (names ++ (l.leaves ++ r.leaves))) :=
      Nnf.map_congr fun x hx => by
        rw [← List.append_assoc, index_append _ (List.mem_append_right _ hx)]
    refine ⟨?_, hnumbersr⟩
    simp only [Naming.internAll, Nnf.leaves, Nnf.map, hl, hkeep, hr]

end Numbers

end Naming

namespace NnfTree

variable {f : Nnf String} {tree : NnfTree}

/-- The table lists the names of a formula by first occurrence, and every name stands for its
position there. -/
theorem ofNames_eq_iff : ofNames f = tree ↔
    tree.table.names.toList = f.leaves.eraseDups.map some ∧
      tree.root = f.map (Naming.index f.leaves) := by
  obtain ⟨hroot, hnumbers⟩ := Naming.numbers_empty.internAll f
  rw [List.nil_append] at hroot hnumbers
  have htable := hnumbers.table
  constructor
  · rintro rfl
    exact ⟨htable, hroot⟩
  · rintro ⟨ht, hr⟩
    have hnames := Array.toList_inj.mp (htable.trans ht.symm)
    exact congr (congrArg mk (hroot.trans hr.symm)) (congrArg VariableTable.mk hnames)

/-- As long as there are indices, every variable is that of its own name. -/
theorem map_name?_ofNames (hsize : (ofNames f).table.size ≤ 2 ^ 32) :
    (ofNames f).root.map (ofNames f).table.name? = f.map some := by
  obtain ⟨htable, hroot⟩ := ofNames_eq_iff.mp (rfl : ofNames f = ofNames f)
  rw [hroot, Nnf.map_map]
  refine Nnf.map_congr fun x hx => ?_
  have hlength : (ofNames f).table.size = f.leaves.eraseDups.length := by
    rw [VariableTable.size, ← Array.length_toList, htable, List.length_map]
  have hlt : f.leaves.eraseDups.idxOf x < f.leaves.eraseDups.length :=
    List.idxOf_lt_length_of_mem (List.mem_eraseDups.mpr hx)
  have hindex : (Naming.index f.leaves x).toNat = f.leaves.eraseDups.idxOf x :=
    UInt32.toNat_ofNat_of_lt' (show _ < 2 ^ 32 by omega)
  rw [Function.comp_apply, VariableTable.name?, hindex, ← Array.getElem?_toList, htable,
    List.getElem?_map, List.getElem?_idxOf (List.mem_eraseDups.mpr hx)]
  rfl

end NnfTree

end Dpll
