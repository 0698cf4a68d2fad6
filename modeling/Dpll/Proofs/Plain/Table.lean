import Dpll.Literal.Bounded
import Mathlib.Data.List.FinRange

/-! Tables that are addressed by plain numbers. Every access is checked: out of bounds there is no
result. Where a table is the image of one whose indices carry their bounds, no access fails
(`Plain.getElem?_image`, `Plain.update?_image`), nor does a loop of such accesses
(`Plain.foldlM_image`). -/

namespace Dpll.Plain

variable {α : Type u} {β : Type v} {γ : Type w} {n : Nat}

/-- Replaces the entry at `i` by what `f` makes of it. -/
def update? (as : Array α) (i : Nat) (f : α → Option α) : Option (Array α) := do
  let a ← as[i]?
  let b ← f a
  return as.setIfInBounds i b

/-- Takes out the element at `i`. -/
def remove? (as : List α) (i : Nat) : Option (List α) :=
  if i < as.length then some (as.eraseIdx i) else none

/-- Puts in an element at `i`, which may be the end. -/
def insert? (as : List α) (i : Nat) (a : α) : Option (List α) :=
  if i ≤ as.length then some (as.insertIdx i a) else none

/-- Splits off the entries from `i` on. -/
def splitOff? (as : Array α) (i : Nat) : Option (Array α × Array α) :=
  if i ≤ as.size then some (as.take i, as.drop i) else none

/-- Splits off the entries from `i` on, if there are any. -/
def cut? (as : Array α) (i : Nat) : Option (Array α × Array α) :=
  if i < as.size then splitOff? as i else some (as, #[])

/-- The elements with a property that has to be looked up. -/
def filter? (p : α → Option Bool) : List α → Option (List α)
  | [] => some []
  | a :: as =>
    match p a, filter? p as with
    | some true, some kept => some (a :: kept)
    | some false, some kept => some kept
    | _, _ => none

/-! ### Tables that are images -/

theorem getElem?_image (v : Vector α n) (g : α → β) (i : Fin n) :
    (v.toArray.map g)[i.val]? = some (g (v.get i)) := by
  simp [Vector.get]

theorem update?_image (v : Vector α n) {g : α → β} (i : Fin n) {f? : β → Option β} {f : α → α}
    (h : f? (g (v.get i)) = some (g (f (v.get i)))) :
    update? (v.toArray.map g) i f? = some ((modifyAt v i f).toArray.map g) := by
  have hset : modifyAt v i f = v.set i (f (v.get i)) := by
    refine Vector.ext fun j hj => ?_
    rw [getElem_modifyAt hj, Vector.getElem_set]
    split
    · next heq =>
      subst heq
      rfl
    · rfl
  rw [update?, getElem?_image, Option.bind_eq_bind, Option.bind_some, h, hset, Vector.toArray_set,
    Array.map_set]
  simp [Array.setIfInBounds]

theorem getElem?_table (t : LiteralTable n α) (g : α → β) (l : BoundedLiteral n) :
    (t.entries.toArray.map g)[l.code.toNat]? = some (g (t.get l)) :=
  getElem?_image t.entries g l.slot

theorem update?_table (t : LiteralTable n α) {g : α → β} (l : BoundedLiteral n)
    {f? : β → Option β} {f : α → α} (h : f? (g (t.get l)) = some (g (f (t.get l)))) :
    update? (t.entries.toArray.map g) l.code.toNat f? =
      some ((t.modify l f).entries.toArray.map g) :=
  update?_image t.entries l.slot h

theorem code_lt_size (t : LiteralTable n α) (l : BoundedLiteral n) :
    l.code.toNat < t.entries.toArray.size := by
  rw [Vector.size_toArray]
  exact l.slot.isLt

theorem getElem?_entries (t : LiteralTable n α) (l : BoundedLiteral n) :
    t.entries.toArray[l.code.toNat]? = some (t.get l) :=
  Array.getElem?_eq_getElem (code_lt_size t l)

theorem update?_set (t : LiteralTable n α) (l : BoundedLiteral n) (a : α) :
    update? t.entries.toArray l.code.toNat (fun _ => some a) =
      some (t.set l a).entries.toArray := by
  rw [update?, getElem?_entries, LiteralTable.set, Vector.toArray_set]
  exact congrArg some (dif_pos (code_lt_size t l))

theorem cut?_eq (as : Array α) (i : Nat) : cut? as i = some (as.take i, as.drop i) := by
  rw [cut?]
  split
  · next hlt => exact if_pos (Nat.le_of_lt hlt)
  · next hle =>
    have hsize : as.size ≤ i := Nat.le_of_not_lt hle
    rw [Array.take, Array.drop, Array.extract_eq_self_of_le hsize,
      Array.extract_empty_of_size_le_start hsize]

theorem toList_drop (as : Array α) (i : Nat) : (as.drop i).toList = as.toList.drop i := by
  rw [Array.drop, Array.toList_extract, List.extract_eq_take_drop]
  exact List.take_of_length_le (by rw [List.length_drop, Array.length_toList])

/-! ### Loops -/

/-- A loop over checked accesses does what the loop without checks does, as long as the state
is one for which the checks succeed. -/
theorem foldlM_image {σ : Type v} {r : γ → σ → Option γ} {f : α → β → α} {e : α → γ} {g : β → σ}
    (P : α → Prop) {s : List β}
    (h : ∀ a b, P a → b ∈ s → r (e a) (g b) = some (e (f a b)) ∧ P (f a b)) {a : α} (ha : P a) :
    (s.map g).foldlM r (e a) = some (e (s.foldl f a)) ∧ P (s.foldl f a) := by
  induction s generalizing a with
  | nil => exact ⟨rfl, ha⟩
  | cons b s ih =>
    obtain ⟨hb, hP⟩ := h a b ha List.mem_cons_self
    rw [List.map_cons, List.foldlM_cons, hb, List.foldl_cons]
    exact ih (fun a b ha hb => h a b ha (List.mem_cons_of_mem _ hb)) hP

theorem filter?_image {p? : β → Option Bool} {p : α → Bool} {g : α → β} {as : List α}
    (h : ∀ a ∈ as, p? (g a) = some (p a)) : filter? p? (as.map g) = some ((as.filter p).map g) := by
  induction as with
  | nil => rfl
  | cons a as ih =>
    obtain ⟨ha, has⟩ := List.forall_mem_cons.mp h
    rw [List.map_cons, filter?, ha, ih has, List.filter_cons]
    cases p a <;> rfl

theorem anyM_image {p? : β → Option Bool} {p : α → Bool} {g : α → β} {as : List α}
    (h : ∀ a ∈ as, p? (g a) = some (p a)) : (as.map g).anyM p? = some (as.any p) := by
  induction as with
  | nil => rfl
  | cons a as ih =>
    obtain ⟨ha, has⟩ := List.forall_mem_cons.mp h
    rw [List.map_cons, List.anyM_cons, ha, List.any_cons]
    cases p a with
    | true => rfl
    | false => exact ih has

theorem mapM_image {σ : Type v} {f? : β → Option σ} {f : α → γ} {g : α → β} {img : γ → σ} {as : List α}
    (h : ∀ a ∈ as, f? (g a) = some (img (f a))) :
    (as.map g).mapM f? = some ((as.map f).map img) := by
  induction as with
  | nil => rfl
  | cons a as ih =>
    obtain ⟨ha, has⟩ := List.forall_mem_cons.mp h
    rw [List.map_cons, List.mapM_cons, ha, ih has]
    rfl

end Dpll.Plain

namespace Dpll

variable {n : Nat}

/-! ### Literals and lists -/

namespace BoundedLiteral

variable {l : BoundedLiteral n} {ls : List (BoundedLiteral n)}

theorem toLiteral_injective : Function.Injective fun l : BoundedLiteral n => l.toLiteral :=
  fun _ _ => ext

theorem contains_map_toLiteral : (ls.map (·.toLiteral)).contains l.toLiteral = ls.contains l := by
  rw [Bool.eq_iff_iff, List.contains_iff_mem, List.contains_iff_mem,
    List.mem_map_of_injective toLiteral_injective]

theorem idxOf?_map_toLiteral : (ls.map (·.toLiteral)).idxOf? l.toLiteral = ls.idxOf? l := by
  induction ls with
  | nil => rfl
  | cons x ls ih =>
    have hx : (x.toLiteral == l.toLiteral) = (x == l) := by
      rw [Bool.eq_iff_iff, beq_iff_eq, beq_iff_eq, toLiteral_injective.eq_iff]
    rw [List.map_cons, List.idxOf?_cons, List.idxOf?_cons, hx, ih]

end BoundedLiteral

/-- A repeated element is the image of a repeated one. -/
theorem eraseDups_map {α : Type u} {β : Type v} [BEq α] [LawfulBEq α] [BEq β] [LawfulBEq β]
    {g : α → β} (hg : Function.Injective g) :
    ∀ as : List α, (as.map g).eraseDups = as.eraseDups.map g
  | [] => rfl
  | a :: as => by
    have hfilter : (as.map g).filter (fun b => !b == g a) = (as.filter fun b => !b == a).map g := by
      rw [List.filter_map]
      congr 1
      refine List.filter_congr fun b _ => ?_
      rw [Function.comp, Bool.eq_iff_iff]
      simp [hg.eq_iff]
    rw [List.map_cons, List.eraseDups_cons, List.eraseDups_cons, hfilter, eraseDups_map hg,
      List.map_cons]
termination_by as => as.length
decreasing_by
  exact Nat.lt_succ_of_le (List.length_filter_le _ _)

end Dpll
