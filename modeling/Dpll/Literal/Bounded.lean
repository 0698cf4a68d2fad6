import Dpll.Literal

/-! Literals of the first `n` variables, and tables indexed by them. A bounded literal carries
its range check, so reading a table at it cannot fail; `LiteralTable.get_set` and
`LiteralTable.get_modify` say what a write changes. -/

namespace Dpll

/-- A literal of one of the first `n` variables. -/
structure BoundedLiteral (n : Nat) extends Literal where
  var_lt : toLiteral.var.toNat < n
deriving DecidableEq, Hashable

instance {n : Nat} : LawfulBEq (BoundedLiteral n) := inferInstance

namespace BoundedLiteral

variable {n : Nat}

/-- The literal `l`, when its variable is among the first `n`. -/
def ofLiteral? (n : Nat) (l : Literal) : Option (BoundedLiteral n) :=
  if h : l.var.toNat < n then some ⟨l, h⟩ else none

@[ext]
theorem ext {a b : BoundedLiteral n} (h : a.toLiteral = b.toLiteral) : a = b := by
  cases a
  cases b
  simp_all

/-- The variable of a bounded literal, as a position among the `n` variables. -/
def position (l : BoundedLiteral n) : Fin n := ⟨l.var.toNat, l.var_lt⟩

/-- The code of a bounded literal, as a position in a table of `2 * n` entries. -/
def slot (l : BoundedLiteral n) : Fin (2 * n) := ⟨l.code.toNat, Literal.toNat_code_lt l.var_lt⟩

instance : Neg (BoundedLiteral n) :=
  ⟨fun l => ⟨-l.toLiteral, by rw [Literal.var_neg]; exact l.var_lt⟩⟩

instance : ToString (BoundedLiteral n) := ⟨fun l => toString l.toLiteral⟩

@[simp]
theorem toLiteral_neg (l : BoundedLiteral n) : (-l).toLiteral = -l.toLiteral := rfl

@[simp]
theorem neg_neg (l : BoundedLiteral n) : - -l = l := by
  ext
  simp

@[simp]
theorem position_neg (l : BoundedLiteral n) : (-l).position = l.position := by
  simp [position]

theorem slot_inj {a b : BoundedLiteral n} : a.slot = b.slot ↔ a = b := by
  constructor
  · intro h
    have hc : a.slot.val = b.slot.val := by rw [h]
    rcases a with ⟨⟨a⟩, _⟩
    rcases b with ⟨⟨b⟩, _⟩
    simpa [slot, UInt32.toNat_inj] using hc
  · rintro rfl
    rfl

end BoundedLiteral

/-- Applies `f` to the entry at `i`, in place when the table is not shared. -/
def modifyAt {α : Type u} {n : Nat} (entries : Vector α n) (i : Fin n) (f : α → α) :
    Vector α n :=
  ⟨entries.toArray.modify i f, by simp⟩

theorem getElem_modifyAt {α : Type u} {n : Nat} {entries : Vector α n} {i : Fin n} {f : α → α}
    {j : Nat} (hj : j < n) :
    (modifyAt entries i f)[j] = if i = j then f entries[j] else entries[j] := by
  rcases entries with ⟨xs, rfl⟩
  simp only [modifyAt, Vector.getElem_mk]
  rw [Array.getElem_modify]

theorem get_modifyAt {α : Type u} {n : Nat} (entries : Vector α n) (i j : Fin n) (f : α → α) :
    (modifyAt entries i f).get j = if i = j then f (entries.get j) else entries.get j := by
  simp only [Fin.ext_iff]
  exact getElem_modifyAt j.isLt

/-- A value for every literal of the first `n` variables. -/
structure LiteralTable (n : Nat) (α : Type u) where
  entries : Vector α (2 * n)

namespace LiteralTable

variable {n : Nat} {α : Type u}

/-- The table that holds `a` everywhere. -/
def replicate (n : Nat) (a : α) : LiteralTable n α := ⟨.replicate (2 * n) a⟩

/-- The value at a literal. -/
def get (t : LiteralTable n α) (l : BoundedLiteral n) : α := t.entries[l.slot]

/-- Replaces the value at a literal. -/
def set (t : LiteralTable n α) (l : BoundedLiteral n) (a : α) : LiteralTable n α :=
  ⟨t.entries.set l.slot a⟩

/-- Applies `f` to the value at a literal. -/
def modify (t : LiteralTable n α) (l : BoundedLiteral n) (f : α → α) : LiteralTable n α :=
  ⟨modifyAt t.entries l.slot f⟩

@[simp]
theorem get_replicate (a : α) (l : BoundedLiteral n) : (replicate n a).get l = a := by
  simp [replicate, get]

theorem get_set (t : LiteralTable n α) (l k : BoundedLiteral n) (a : α) :
    (t.set l a).get k = if l = k then a else t.get k := by
  simp only [get, set, Fin.getElem_fin, Vector.getElem_set, ← BoundedLiteral.slot_inj,
    Fin.ext_iff]

theorem get_modify (t : LiteralTable n α) (l k : BoundedLiteral n) (f : α → α) :
    (t.modify l f).get k = if l = k then f (t.get k) else t.get k := by
  simp only [get, modify, Fin.getElem_fin, getElem_modifyAt, ← BoundedLiteral.slot_inj,
    Fin.ext_iff]

end LiteralTable

end Dpll
