import Dpll.Nnf.Reader
import Mathlib.Algebra.Group.Nat.Defs

/-! Formulas as they are read: their variables are those of their table, as long as the table has no
more variables than there are indices. -/

namespace Dpll

namespace VariableTable

variable {t : VariableTable} {name : Option String}

@[simp]
theorem size_push : (t.push name).size = t.size + 1 := Array.size_push _

theorem toNat_next (h : t.size < 2 ^ 32) : t.next.toNat = t.size := UInt32.toNat_ofNat_of_lt' h

end VariableTable

namespace Naming

variable {s : Naming} {name : String} {f : Nnf String}

/-- The variables of the names met are in the table. -/
def InTable (s : Naming) : Prop :=
  ∀ (name : String) (v : Variable), s.known[name]? = some v → v.toNat < s.table.size

theorem inTable_empty : empty.InTable := by
  intro name v h
  simp [empty] at h

theorem size_le_intern : s.table.size ≤ (s.intern name).2.table.size := by
  unfold intern
  split
  · exact Nat.le_refl _
  · simp

theorem size_le_internAll : s.table.size ≤ (s.internAll f).2.table.size := by
  induction f generalizing s with
  | var | neg => exact size_le_intern
  | and l r ihl ihr | or l r ihl ihr => exact Nat.le_trans ihl ihr

theorem InTable.intern (h : s.InTable) (hsize : (s.intern name).2.table.size ≤ 2 ^ 32) :
    (s.intern name).2.InTable ∧ (s.intern name).1.toNat < (s.intern name).2.table.size := by
  unfold Naming.intern at hsize ⊢
  split at hsize
  · rename_i v hv
    exact ⟨h, h name v hv⟩
  · have hnext : s.table.next.toNat = s.table.size := by
      rw [VariableTable.size_push] at hsize
      exact VariableTable.toNat_next hsize
    have hlt : s.table.next.toNat < (s.table.push (some name)).size := by simp [hnext]
    refine ⟨fun x v hv => ?_, hlt⟩
    rw [Std.HashMap.getElem?_insert] at hv
    split at hv
    · exact Option.some.inj hv ▸ hlt
    · exact Nat.lt_of_lt_of_le (h x v hv) (by simp)

theorem InTable.internAll (h : s.InTable) (hsize : (s.internAll f).2.table.size ≤ 2 ^ 32) :
    (s.internAll f).2.InTable ∧
      ∀ v ∈ (s.internAll f).1.leaves, v.toNat < (s.internAll f).2.table.size := by
  induction f generalizing s with
  | var name | neg name =>
    obtain ⟨hknown, hlt⟩ := h.intern hsize
    refine ⟨hknown, fun v hv => ?_⟩
    rw [List.mem_singleton.mp hv]
    exact hlt
  | and l r ihl ihr | or l r ihl ihr =>
    obtain ⟨hknownl, hl⟩ := ihl h (Nat.le_trans size_le_internAll hsize)
    obtain ⟨hknownr, hr⟩ := ihr hknownl hsize
    refine ⟨hknownr, fun v hv => ?_⟩
    rcases List.mem_append.mp hv with hv | hv
    · exact Nat.lt_of_lt_of_le (hl v hv) size_le_internAll
    · exact hr v hv

end Naming

theorem Nnf.evaluate_congr {α : Type u} {f : Nnf α} {v w : α → Bool} (h : ∀ a ∈ f.leaves, v a = w a) :
    f.evaluate v = f.evaluate w := by
  induction f with
  | var a => exact h a (List.mem_singleton_self a)
  | neg a => exact congrArg (! ·) (h a (List.mem_singleton_self a))
  | and l r ihl ihr | or l r ihl ihr =>
    have hl := ihl fun a ha => h a (List.mem_append_left _ ha)
    have hr := ihr fun a ha => h a (List.mem_append_right _ ha)
    simp only [evaluate, hl, hr]

/-- Every variable of the formula is in its table. -/
def NnfTree.InRange (t : NnfTree) : Prop := ∀ v ∈ t.root.leaves, v.toNat < t.table.size

theorem NnfTree.inRange_read {text : String} {t : NnfTree} (h : read text = .ok t)
    (hsize : t.table.size ≤ 2 ^ 32) : t.InRange := by
  unfold read at h
  split at h
  · cases h
  · rename_i f _
    obtain rfl := Except.ok.inj h
    exact (Naming.inTable_empty.internAll hsize).2

end Dpll
