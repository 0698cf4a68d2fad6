import Dpll.Proofs.Trail
import Dpll.Watched

/-! The search for a replacement of a falsified watch. It goes once around the clause from the position
after the watch (`WatchedClause.map_val_cyclicFrom`, `perm_cyclicFrom`) and ends at the first position
that does not let it pass, so it misses no true literal and no open one that the other watch leaves
free (`Watched.findReplacement_complete`). -/

namespace Dpll

namespace WatchedClause

variable {n : Nat} {c : WatchedClause n} {w : Watch} {isTrue isOpen : BoundedLiteral n → Bool}
  {x : BoundedLiteral n} {p : Fin c.literals.size} {r : Replacement c.literals.size}

/-- The literal that a clause watches. -/
def watched (c : WatchedClause n) (w : Watch) : Option (BoundedLiteral n) :=
  c.literals.toList[c.position w]?

/-- The literal at a position of a clause. -/
def literal (c : WatchedClause n) (p : Fin c.literals.size) : BoundedLiteral n :=
  c.literals.toList.get p

/-! ### The order of positions -/

theorem perm_cyclicFrom (k current : Nat) : (cyclicFrom k current).Perm (List.finRange k) := by
  refine List.perm_append_comm.trans ?_
  rw [List.take_append_drop]

theorem mem_cyclicFrom (k current : Nat) (p : Fin k) : p ∈ cyclicFrom k current :=
  (perm_cyclicFrom k current).mem_iff.mpr (List.mem_finRange p)

theorem map_val_cyclicFrom {k current : Nat} (h : current < k) :
    (cyclicFrom k current).map Fin.val = (List.range k).map fun j => (current + 1 + j) % k := by
  have hlength : (cyclicFrom k current).length = k := by
    rw [(perm_cyclicFrom k current).length_eq, List.length_finRange]
  refine List.ext_getElem (by simp [hlength]) fun j hj _ => ?_
  rw [List.length_map, hlength] at hj
  simp only [cyclicFrom, List.map_append, List.map_drop, List.map_take, List.map_coe_finRange_eq_range,
    List.getElem_append, List.length_drop, List.length_range, List.getElem_drop, List.getElem_take,
    List.getElem_range, List.getElem_map]
  split
  · exact (Nat.mod_eq_of_lt (by omega)).symm
  · rw [Nat.mod_eq_sub_mod (by omega), Nat.mod_eq_of_lt (by omega)]
    omega

/-! ### One position -/

/-- What a search for a replacement makes of the literal `x` at a position. -/
def consider (c : WatchedClause n) (isTrue isOpen : BoundedLiteral n → Bool) (w : Watch)
    (x : BoundedLiteral n) (p : Fin c.literals.size) : Option (Replacement c.literals.size) :=
  if isTrue x then some .satisfied
  else if p.val ≠ c.position w.other && isOpen x then some (.move p)
  else none

/-- The position does not end the search: its literal is false, or open and watched by the other
watch. -/
def Passes (c : WatchedClause n) (isTrue isOpen : BoundedLiteral n → Bool) (w : Watch)
    (p : Fin c.literals.size) : Prop :=
  isTrue (c.literal p) = false ∧ (isOpen (c.literal p) = true → p.val = c.position w.other)

instance : Decidable (c.Passes isTrue isOpen w p) := inferInstanceAs (Decidable (_ ∧ _))

theorem consider_eq_none_iff :
    c.consider isTrue isOpen w (c.literal p) p = none ↔ c.Passes isTrue isOpen w p := by
  unfold consider Passes
  cases isTrue (c.literal p) with
  | true => simp
  | false => cases isOpen (c.literal p) <;> simp

theorem consider_eq_satisfied_iff :
    c.consider isTrue isOpen w x p = some .satisfied ↔ isTrue x = true := by
  unfold consider
  cases isTrue x with
  | true => simp
  | false => simp

theorem consider_eq_move_iff {q : Fin c.literals.size} :
    c.consider isTrue isOpen w x q = some (.move p) ↔
      q = p ∧ isTrue x = false ∧ isOpen x = true ∧ q.val ≠ c.position w.other := by
  unfold consider
  cases isTrue x with
  | true => simp
  | false => simp [and_comm]

theorem consider_ne_unit : c.consider isTrue isOpen w x p ≠ some .unit := by
  unfold consider
  split
  · simp
  · split <;> simp

/-! ### The whole search -/

theorem findReplacement_eq : c.findReplacement isTrue isOpen w =
    ((cyclicFrom c.literals.size (c.position w)).findSome? fun p =>
      c.consider isTrue isOpen w (c.literals.toList.get p) p).getD .unit := rfl

theorem findReplacement_eq_unit_iff :
    c.findReplacement isTrue isOpen w = .unit ↔ ∀ p, c.Passes isTrue isOpen w p := by
  rw [findReplacement_eq]
  constructor
  · intro h p
    cases hfound : (cyclicFrom c.literals.size (c.position w)).findSome? fun p =>
        c.consider isTrue isOpen w (c.literals.toList.get p) p with
    | none => exact consider_eq_none_iff.mp (List.findSome?_eq_none_iff.mp hfound p (mem_cyclicFrom ..))
    | some r =>
      obtain ⟨q, -, hq⟩ := List.exists_of_findSome?_eq_some hfound
      rw [hfound] at h
      obtain rfl : r = .unit := h
      exact absurd hq consider_ne_unit
  · intro h
    have hnone : ((cyclicFrom c.literals.size (c.position w)).findSome? fun p =>
        c.consider isTrue isOpen w (c.literals.toList.get p) p) = none :=
      List.findSome?_eq_none_iff.mpr fun p _ => consider_eq_none_iff.mpr (h p)
    rw [hnone]
    rfl

/-- The search ends with the first position that does not let it pass. -/
theorem findReplacement_eq_iff (hr : r ≠ .unit) : c.findReplacement isTrue isOpen w = r ↔
    ∃ seen p rest, cyclicFrom c.literals.size (c.position w) = seen ++ p :: rest ∧
      (∀ q ∈ seen, c.Passes isTrue isOpen w q) ∧
      c.consider isTrue isOpen w (c.literal p) p = some r := by
  have hsome : c.findReplacement isTrue isOpen w = r ↔
      ((cyclicFrom c.literals.size (c.position w)).findSome? fun p =>
        c.consider isTrue isOpen w (c.literals.toList.get p) p) = some r := by
    rw [findReplacement_eq]
    cases (cyclicFrom c.literals.size (c.position w)).findSome? fun p =>
        c.consider isTrue isOpen w (c.literals.toList.get p) p with
    | none => simp [hr.symm]
    | some r' => simp
  rw [hsome, List.findSome?_eq_some_iff]
  refine exists_congr fun seen => exists_congr fun p => exists_congr fun rest => and_congr_right' ?_
  rw [and_comm]
  exact and_congr_left' (forall₂_congr fun q _ => consider_eq_none_iff)

theorem exists_true_of_satisfied (h : c.findReplacement isTrue isOpen w = .satisfied) :
    ∃ x ∈ c.literals.toList, isTrue x = true := by
  obtain ⟨-, p, -, -, -, hp⟩ := (findReplacement_eq_iff (by simp)).mp h
  exact ⟨c.literal p, List.get_mem .., consider_eq_satisfied_iff.mp hp⟩

theorem open_of_move (h : c.findReplacement isTrue isOpen w = .move p) :
    p.val ≠ c.position w.other ∧ isOpen (c.literals.toList.get p) = true := by
  obtain ⟨-, q, -, -, -, hq⟩ := (findReplacement_eq_iff (by simp)).mp h
  obtain ⟨rfl, -, hopen, hne⟩ := consider_eq_move_iff.mp hq
  exact ⟨hne, hopen⟩

/-- Without a replacement, the other watch is the only literal that can be open. -/
theorem other_of_unit (h : c.findReplacement isTrue isOpen w = .unit) (hx : x ∈ c.literals.toList) :
    isTrue x = false ∧ (c.watched w.other = some x ∨ isOpen x = false) := by
  obtain ⟨p, hp, rfl⟩ := List.mem_iff_getElem.mp hx
  obtain ⟨htrue, hopen⟩ := findReplacement_eq_unit_iff.mp h ⟨p, by simpa using hp⟩
  refine ⟨htrue, ?_⟩
  cases ho : isOpen c.literals.toList[p] with
  | false => exact .inr rfl
  | true =>
    have hpos : p = c.position w.other := hopen ho
    exact .inl (by rw [watched, ← hpos, List.getElem?_eq_getElem hp])

end WatchedClause

namespace Watched

variable {n m : Nat} {f : Watched n m} {x : BoundedLiteral n}

theorem isTrue_of_isOpen (h : f.isOpen x = true) : f.isTrue x = false ∧ f.isTrue (-x) = false := by
  simpa [isOpen] using h

/-- From a watch inside of its clause, as those of two literals are, the search visits every position
once, in cyclic order from the one after the watch. It ends at the first one whose literal is true, or is
open and left free by the other watch; without a replacement no literal is true, and none is open but that
of the other watch. A watch that was falsified does not stay. -/
theorem findReplacement_complete (f : Watched n m) (i : Fin m) (w : Watch)
    (hw : (f.clauses.get i).position w < (f.clauses.get i).literals.size) :
    let c := f.clauses.get i
    let order := WatchedClause.cyclicFrom c.literals.size (c.position w)
    let found := c.findReplacement f.isTrue f.isOpen w
    order.Perm (List.finRange c.literals.size) ∧
      order.map Fin.val =
        (List.range c.literals.size).map (fun j => (c.position w + 1 + j) % c.literals.size) ∧
      (found = .satisfied ↔ ∃ seen p rest, order = seen ++ p :: rest ∧
        (∀ q ∈ seen, c.Passes f.isTrue f.isOpen w q) ∧ f.isTrue (c.literal p) = true) ∧
      (∀ p, found = .move p ↔ ∃ seen rest, order = seen ++ p :: rest ∧
        (∀ q ∈ seen, c.Passes f.isTrue f.isOpen w q) ∧
        f.isOpen (c.literal p) = true ∧ p.val ≠ c.position w.other) ∧
      (found = .unit ↔ ∀ p : Fin c.literals.size, f.isTrue (c.literal p) = false ∧
        (f.isOpen (c.literal p) = true → p.val = c.position w.other)) ∧
      (∀ y, c.watched w = some y → f.isTrue (-y) = true →
        ∀ p, found = .move p → p.val ≠ c.position w) := by
  intro c order found
  refine ⟨WatchedClause.perm_cyclicFrom .., WatchedClause.map_val_cyclicFrom hw, ?_, fun p => ?_,
    WatchedClause.findReplacement_eq_unit_iff, fun y hy hfalse p hp heq => ?_⟩
  · rw [WatchedClause.findReplacement_eq_iff (by simp)]
    simp only [WatchedClause.consider_eq_satisfied_iff, c, order]
  · rw [WatchedClause.findReplacement_eq_iff (by simp)]
    constructor
    · rintro ⟨seen, q, rest, horder, hseen, hq⟩
      obtain ⟨rfl, -, hopen, hne⟩ := WatchedClause.consider_eq_move_iff.mp hq
      exact ⟨seen, rest, horder, hseen, hopen, hne⟩
    · rintro ⟨seen, rest, horder, hseen, hopen, hne⟩
      exact ⟨seen, p, rest, horder, hseen,
        WatchedClause.consider_eq_move_iff.mpr ⟨rfl, (isTrue_of_isOpen hopen).1, hopen, hne⟩⟩
  · have hopen : f.isOpen (c.literal p) = true := (WatchedClause.open_of_move hp).2
    have hwatched : c.watched w = some (c.literal p) := by
      rw [WatchedClause.watched, ← heq]
      exact List.getElem?_eq_getElem p.isLt
    rw [hwatched] at hy
    obtain rfl := Option.some.inj hy
    rw [(isTrue_of_isOpen hopen).2] at hfalse
    cases hfalse

/-- One clause of four literals. The first watch moves to the third literal and stays there when that
level is undone. Then the last literal and the third one become false, and the search goes on at the
front. -/
theorem findReplacement_complete_four_literals :
    let x : BoundedLiteral 4 := ⟨⟨0⟩, by decide⟩
    let y : BoundedLiteral 4 := ⟨⟨2⟩, by decide⟩
    let z : BoundedLiteral 4 := ⟨⟨4⟩, by decide⟩
    let v : BoundedLiteral 4 := ⟨⟨6⟩, by decide⟩
    let f : Watched 4 1 := (((ofClauses [[x, y, z, v]]).assign (-x) 1).backtrack 0).assign (-v) 1
    let g : Watched 4 1 := { f with levels := f.levels.set (-z) (some 2) }
    let c := g.clauses.get 0
    c.position .first = 2 ∧ c.position .second = 1 ∧ c.position .first < c.literals.size ∧
      ∃ p : Fin c.literals.size, p.val = 0 ∧ c.findReplacement g.isTrue g.isOpen .first = .move p := by
  intro x y z v f g c
  have hw : c.position .first < c.literals.size := by decide +kernel
  obtain ⟨-, -, -, hmove, -⟩ := findReplacement_complete g 0 .first hw
  refine ⟨by decide +kernel, by decide +kernel, hw, ⟨0, by decide +kernel⟩, rfl, (hmove _).mpr ?_⟩
  exact ⟨[⟨3, by decide +kernel⟩], [⟨1, by decide +kernel⟩, ⟨2, by decide +kernel⟩],
    by decide +kernel, by decide +kernel, by decide +kernel, by decide +kernel⟩

end Watched

end Dpll
