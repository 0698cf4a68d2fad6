import Dpll.Backtrackable
import Dpll.Proofs.Valuation
import Mathlib.Data.List.Nodup
import Mathlib.Data.List.Perm.Subperm
import Mathlib.Order.Fin.Basic

/-! Trails of true literals, and what they do to a clause. A timeline is a trail with the level of
every literal, newest first; undoing to a level keeps `Timeline.upTo` that level, and
`Timeline.layers` lists the trails that are still to be returned to. -/

namespace Dpll

/-- In a list of falling keys, those above `k` come first. -/
theorem dropWhile_eq_filter_of_sorted {α : Type u} (key : α → Nat) {as : List α} {k : Nat}
    (h : as.Pairwise fun newer older => key older ≤ key newer) :
    as.dropWhile (k < key ·) = as.filter (key · ≤ k) := by
  induction as with
  | nil => rfl
  | cons a as ih =>
    obtain ⟨ha, has⟩ := List.pairwise_cons.mp h
    by_cases hk : k < key a
    · rw [List.dropWhile_cons_of_pos (by simpa using hk), ih has,
        List.filter_cons_of_neg (by simpa using hk)]
    · rw [List.dropWhile_cons_of_neg (by simpa using hk), List.filter_eq_self.mpr]
      intro x hx
      rcases List.mem_cons.mp hx with rfl | hx
      · simpa using hk
      · exact decide_eq_true (Nat.le_trans (ha x hx) (Nat.le_of_not_lt hk))

theorem nodup_eraseDups {α : Type u} [BEq α] [LawfulBEq α] : ∀ as : List α, as.eraseDups.Nodup
  | [] => by simp
  | a :: as => by
    rw [List.eraseDups_cons, List.nodup_cons]
    exact ⟨by simp, nodup_eraseDups _⟩
termination_by as => as.length
decreasing_by
  have := List.length_filter_le (fun b => !b == a) as
  rw [List.length_cons]
  omega

theorem eraseDups_eq_nil_iff {α : Type u} [BEq α] {as : List α} : as.eraseDups = [] ↔ as = [] := by
  cases as <;> simp [List.eraseDups_cons]

theorem nil_mem_iff {α : Type u} [BEq α] {cs : List (List α)} :
    [] ∈ cs ↔ ∃ i : Fin cs.length, (cs.get i).eraseDups = [] := by
  rw [List.mem_iff_getElem]
  constructor
  · rintro ⟨i, hi, heq⟩
    exact ⟨⟨i, hi⟩, eraseDups_eq_nil_iff.mpr heq⟩
  · rintro ⟨i, hi⟩
    exact ⟨i, i.isLt, eraseDups_eq_nil_iff.mp hi⟩

/-- A narrower predicate counts less if it misses an element. -/
theorem countP_lt_countP {α : Type u} {as : List α} {p q : α → Bool} {a : α}
    (hpq : ∀ x ∈ as, p x → q x) (ha : a ∈ as) (hq : q a) (hp : ¬p a) :
    as.countP p < as.countP q := by
  obtain ⟨s, t, rfl⟩ := List.append_of_mem ha
  have hs : s.countP p ≤ s.countP q :=
    List.countP_mono_left fun x hx => hpq x (List.mem_append_left _ hx)
  have ht : t.countP p ≤ t.countP q :=
    List.countP_mono_left fun x hx => hpq x (by simp [hx])
  rw [List.countP_append, List.countP_append, List.countP_cons_of_neg hp,
    List.countP_cons_of_pos hq]
  omega

theorem toList_eq_map_get {α : Type u} {m : Nat} (v : Vector α m) :
    v.toList = (List.finRange m).map v.get := by
  apply List.ext_getElem
  · simp
  · intro p hp _
    simp [Vector.get]

theorem one_lt_length {α : Type u} {a b : α} {as : List α} (ha : a ∈ as) (hb : b ∈ as)
    (hne : a ≠ b) : 1 < as.length := by
  match as with
  | [x] => exact absurd ((List.mem_singleton.mp ha).trans (List.mem_singleton.mp hb).symm) hne
  | _ :: _ :: _ => exact Nat.succ_lt_succ (Nat.succ_pos _)

variable {n : Nat}

/-- Literals made true, newest first. -/
abbrev Trail (n : Nat) := List (BoundedLiteral n)

namespace Trail

/-- Neither the literal nor its negation is true. -/
def Open (A : Trail n) (l : BoundedLiteral n) : Prop := l ∉ A ∧ -l ∉ A

/-- Some literal of the clause is true. -/
def Satisfies (A : Trail n) (c : List (BoundedLiteral n)) : Prop := ∃ l ∈ c, l ∈ A

/-- Every literal of the clause is false. -/
def Falsifies (A : Trail n) (c : List (BoundedLiteral n)) : Prop := ∀ l ∈ c, -l ∈ A

instance {A : Trail n} {l : BoundedLiteral n} : Decidable (A.Open l) :=
  inferInstanceAs (Decidable (l ∉ A ∧ -l ∉ A))

instance {A : Trail n} {c : List (BoundedLiteral n)} : Decidable (A.Satisfies c) :=
  inferInstanceAs (Decidable (∃ l ∈ c, l ∈ A))

instance {A : Trail n} {c : List (BoundedLiteral n)} : Decidable (A.Falsifies c) :=
  inferInstanceAs (Decidable (∀ l ∈ c, -l ∈ A))

/-- The clause gives propagation nothing to do: it has a true literal or two open ones. -/
def Settles (A : Trail n) (c : List (BoundedLiteral n)) : Prop :=
  A.Satisfies c ∨ ∃ a ∈ c, ∃ b ∈ c, a ≠ b ∧ A.Open a ∧ A.Open b

/-- No variable occurs twice. -/
def Consistent (A : Trail n) : Prop := (A.map (·.position)).Nodup

variable {A B : Trail n} {c d : List (BoundedLiteral n)} {l : BoundedLiteral n}

theorem open_neg : A.Open (-l) ↔ A.Open l := by
  rw [Open, Open, BoundedLiteral.neg_neg, and_comm]

theorem Open.mono (hAB : A ⊆ B) (h : B.Open l) : A.Open l :=
  ⟨fun hl => h.1 (hAB hl), fun hl => h.2 (hAB hl)⟩

theorem not_mem_positions_iff : l.position ∉ A.map (·.position) ↔ A.Open l := by
  simp only [List.mem_map, not_exists, not_and, BoundedLiteral.position_eq_iff]
  constructor
  · intro h
    exact ⟨fun hl => h l hl (.inl rfl), fun hl => h (-l) hl (.inr rfl)⟩
  · rintro ⟨hl, hneg⟩ x hx (rfl | rfl)
    · exact hl hx
    · exact hneg hx

theorem consistent_cons : Consistent (l :: A) ↔ A.Open l ∧ A.Consistent := by
  rw [Consistent, List.map_cons, List.nodup_cons, not_mem_positions_iff, Consistent]

theorem consistent_reverse : Consistent A.reverse ↔ A.Consistent := by
  rw [Consistent, List.map_reverse, List.nodup_reverse, Consistent]

theorem open_reverse : Open A.reverse l ↔ A.Open l := by
  simp only [Open, List.mem_reverse]

theorem falsifies_reverse : Falsifies A.reverse c ↔ A.Falsifies c := by
  simp only [Falsifies, List.mem_reverse]

theorem Consistent.neg_not_mem (h : A.Consistent) (hl : l ∈ A) : -l ∉ A := fun hneg =>
  BoundedLiteral.neg_ne_self l
    (List.inj_on_of_nodup_map h hneg hl (BoundedLiteral.position_neg l))

/-- The number of variables without a true literal. -/
def numOpen (A : Trail n) : Nat := (List.finRange n).countP fun v => v ∉ A.map (·.position)

theorem numOpen_reverse : numOpen A.reverse = A.numOpen := by
  simp [numOpen]

theorem Consistent.numOpen_add_length (h : A.Consistent) : A.numOpen + A.length = n := by
  have hperm : ((List.finRange n).filter (· ∈ A.map (·.position))).Perm (A.map (·.position)) := by
    refine (List.perm_ext_iff_of_nodup ((List.nodup_finRange n).filter _) h).mpr fun v => ?_
    simp
  have hfixed : (List.finRange n).countP (· ∈ A.map (·.position)) = A.length := by
    rw [List.countP_eq_length_filter, hperm.length_eq, List.length_map]
  have hall := List.length_eq_countP_add_countP (· ∈ A.map (·.position)) (l := List.finRange n)
  have hopen : (List.finRange n).countP (fun v => ¬decide (v ∈ A.map (·.position)) = true) =
      A.numOpen := List.countP_congr fun v _ => by simp
  rw [hfixed, hopen, List.length_finRange, Nat.add_comm] at hall
  exact hall.symm

theorem Consistent.length_le (h : A.Consistent) : A.length ≤ n := by
  have hopen := h.numOpen_add_length
  lia

theorem Satisfies.mono (hAB : A ⊆ B) (h : A.Satisfies c) : B.Satisfies c := by
  obtain ⟨l, hl, hA⟩ := h
  exact ⟨l, hl, hAB hA⟩

theorem satisfies_cons : Satisfies (l :: A) c ↔ l ∈ c ∨ A.Satisfies c := by
  simp only [Satisfies, List.mem_cons]
  constructor
  · rintro ⟨x, hx, rfl | hA⟩
    · exact .inl hx
    · exact .inr ⟨x, hx, hA⟩
  · rintro (hl | ⟨x, hx, hA⟩)
    · exact ⟨l, hl, .inl rfl⟩
    · exact ⟨x, hx, .inr hA⟩

theorem Falsifies.mono (hAB : A ⊆ B) (h : A.Falsifies c) : B.Falsifies c := fun l hl => hAB (h l hl)

theorem Consistent.not_satisfies (h : A.Consistent) (hc : A.Falsifies c) : ¬A.Satisfies c := by
  rintro ⟨l, hl, hA⟩
  exact h.neg_not_mem hA (hc l hl)

theorem Consistent.not_settles (h : A.Consistent) (hc : A.Falsifies c) : ¬A.Settles c := by
  rintro (hs | ⟨a, ha, _, _, _, hopen, _⟩)
  · exact h.not_satisfies hc hs
  · exact hopen.2 (hc a ha)

/-- A literal that falsifies none of the clause leaves it settled. -/
theorem Settles.cons (h : A.Settles c) (hl : -l ∉ c) : Settles (l :: A) c := by
  rcases h with hs | ⟨a, ha, b, hb, hne, hoa, hob⟩
  · exact .inl (hs.mono (List.subset_cons_self _ _))
  by_cases hlc : l ∈ c
  · exact .inl ⟨l, hlc, List.mem_cons_self⟩
  have hopen {x} (hx : x ∈ c) (ho : A.Open x) : Open (l :: A) x := by
    refine ⟨fun h => ?_, fun h => ?_⟩
    · rcases List.mem_cons.mp h with rfl | h
      · exact hlc hx
      · exact ho.1 h
    · rcases List.mem_cons.mp h with rfl | h
      · exact hl (by rwa [BoundedLiteral.neg_neg])
      · exact ho.2 h
  exact .inr ⟨a, ha, b, hb, hne, hopen ha hoa, hopen hb hob⟩

/-- Nothing is to be done about two literals before any is fixed. -/
theorem settles_nil (hc : c.Nodup) (hlen : 1 < c.length) : Settles [] c := by
  match c, hc, hlen with
  | a :: b :: c, hc, _ =>
    have hab : a ≠ b := fun h => (List.nodup_cons.mp hc).1 (h ▸ List.mem_cons_self)
    exact .inr ⟨a, by simp, b, by simp, hab, by simp [Open], by simp [Open]⟩

/-- A clause of at most one literal is settled only by that literal. -/
theorem Settles.satisfies (h : A.Settles c) (hc : c.length ≤ 1) : A.Satisfies c := by
  refine h.resolve_right ?_
  rintro ⟨a, ha, b, hb, hne, _⟩
  exact Nat.not_lt_of_le hc (one_lt_length ha hb hne)

theorem falsifies_eraseDups : A.Falsifies c.eraseDups ↔ A.Falsifies c := by
  simp [Falsifies]

theorem satisfies_eraseDups : A.Satisfies c.eraseDups ↔ A.Satisfies c := by
  simp [Satisfies]

theorem settles_eraseDups : A.Settles c.eraseDups ↔ A.Settles c := by
  simp [Settles, satisfies_eraseDups]

/-- What a trail does to a clause depends on the clause's own variables. -/
theorem settles_congr (h : ∀ x ∈ c, (x ∈ A ↔ x ∈ B) ∧ (-x ∈ A ↔ -x ∈ B)) :
    A.Settles c ↔ B.Settles c := by
  have hopen : ∀ x ∈ c, (A.Open x ↔ B.Open x) := fun x hx => by
    rw [Open, Open, (h x hx).1, (h x hx).2]
  constructor
  · rintro (⟨l, hl, hA⟩ | ⟨a, ha, b, hb, hne, hoa, hob⟩)
    · exact .inl ⟨l, hl, (h l hl).1.mp hA⟩
    · exact .inr ⟨a, ha, b, hb, hne, (hopen a ha).mp hoa, (hopen b hb).mp hob⟩
  · rintro (⟨l, hl, hB⟩ | ⟨a, ha, b, hb, hne, hoa, hob⟩)
    · exact .inl ⟨l, hl, (h l hl).1.mpr hB⟩
    · exact .inr ⟨a, ha, b, hb, hne, (hopen a ha).mpr hoa, (hopen b hb).mpr hob⟩

theorem settles_reverse : Settles A.reverse c ↔ A.Settles c :=
  settles_congr fun _ _ => ⟨List.mem_reverse, List.mem_reverse⟩

/-- The valuation that makes the literals of a trail true and every other variable false. -/
def valuation (A : Trail n) : Valuation := fun x => A.any fun l => l.var == x && l.isPositive

theorem Consistent.holds_valuation (h : A.Consistent) (hl : l ∈ A) : l.Holds A.valuation := by
  rw [Literal.Holds, valuation, Bool.eq_iff_iff, List.any_eq_true]
  constructor
  · rintro ⟨x, hx, hxl⟩
    simp only [Bool.and_eq_true, beq_iff_eq] at hxl
    have heq : x.position = l.position := Fin.ext (by simp [BoundedLiteral.position, hxl.1])
    rw [← List.inj_on_of_nodup_map h hx hl heq]
    exact hxl.2
  · intro hpos
    exact ⟨l, hl, by simp [hpos]⟩

end Trail

/-- Literals with the levels at which they were made true, newest first. -/
abbrev Timeline (n : Nat) := List (Level × BoundedLiteral n)

namespace Timeline

/-- The literals without their levels. -/
def literals (E : Timeline n) : Trail n := E.map (·.2)

/-- The literals of a level and those below. -/
def upTo (E : Timeline n) (k : Level) : Trail n := literals (E.filter (·.1 ≤ k))

/-- The trails up to each of the levels below `c`, highest level first. -/
def layers (E : Timeline n) : (c : Level) → List (Trail n)
  | 0 => []
  | c + 1 => E.upTo c :: E.layers c

/-- No variable occurs twice, levels never go down, and none lies above `c`. -/
structure Ordered (E : Timeline n) (c : Level) : Prop where
  consistent : E.literals.Consistent
  sorted : E.Pairwise fun newer older => older.1 ≤ newer.1
  le : ∀ e ∈ E, e.1 ≤ c

variable {E : Timeline n} {c j k : Level} {l : BoundedLiteral n}

@[simp]
theorem length_layers : (E.layers c).length = c := by
  induction c with
  | zero => rfl
  | succ c ih => rw [layers, List.length_cons, ih]

@[simp]
theorem literals_cons : literals ((k, l) :: E) = l :: E.literals := rfl

theorem mem_upTo : l ∈ E.upTo k ↔ ∃ j ≤ k, (j, l) ∈ E := by
  simp only [upTo, literals, List.mem_map, List.mem_filter, decide_eq_true_eq]
  constructor
  · rintro ⟨⟨j, _⟩, ⟨hmem, hle⟩, rfl⟩
    exact ⟨j, hle, hmem⟩
  · rintro ⟨j, hle, hmem⟩
    exact ⟨(j, l), ⟨hmem, hle⟩, rfl⟩

theorem mem_literals : l ∈ E.literals ↔ ∃ j, (j, l) ∈ E := by
  simp [literals]

theorem upTo_subset : E.upTo k ⊆ E.literals := fun _ h =>
  let ⟨j, _, hj⟩ := mem_upTo.mp h
  mem_literals.mpr ⟨j, hj⟩

theorem upTo_eq_literals (h : ∀ e ∈ E, e.1 ≤ k) : E.upTo k = E.literals := by
  rw [upTo, List.filter_eq_self.mpr fun e he => decide_eq_true (h e he)]

theorem upTo_cons_of_lt (h : k < j) : upTo ((j, l) :: E) k = E.upTo k := by
  rw [upTo, List.filter_cons_of_neg (by simpa using h), upTo]

theorem upTo_cons_subset : E.upTo k ⊆ upTo ((j, l) :: E) k := fun _ h =>
  let ⟨i, hi, hmem⟩ := mem_upTo.mp h
  mem_upTo.mpr ⟨i, hi, List.mem_cons_of_mem _ hmem⟩

theorem layers_cons (h : c ≤ j) : layers ((j, l) :: E) c = E.layers c := by
  induction c with
  | zero => rfl
  | succ c ih => rw [layers, layers, upTo_cons_of_lt h, ih (by lia)]

theorem literals_append_map (new : Trail n) :
    literals (new.map (k, ·) ++ E) = new ++ E.literals := by
  simp [literals, Function.comp_def]

theorem layers_append_map (h : c ≤ k) (new : Trail n) :
    layers (new.map (k, ·) ++ E) c = E.layers c := by
  induction new with
  | nil => rfl
  | cons l new ih => rw [List.map_cons, List.cons_append, layers_cons h, ih]

theorem upTo_filter : upTo (E.filter (·.1 ≤ k)) j = E.upTo (min j k) := by
  rw [upTo, List.filter_filter, upTo]
  congr 1
  apply List.filter_congr
  intro e _
  rw [Bool.eq_iff_iff]
  simp only [Bool.and_eq_true, decide_eq_true_eq]
  lia

theorem layers_filter (h : c ≤ k + 1) : layers (E.filter (·.1 ≤ k)) c = E.layers c := by
  induction c with
  | zero => rfl
  | succ c ih => rw [layers, layers, upTo_filter, Nat.min_eq_left (by lia), ih (by lia)]

/-- A suffix of the layers is the trail of its level on top of the layers below that level. -/
theorem layers_eq_append {A : Trail n} {As pre : List (Trail n)}
    (h : E.layers c = pre ++ A :: As) :
    As.length < c ∧ A = E.upTo As.length ∧ As = E.layers As.length := by
  induction c generalizing pre with
  | zero => simp [layers] at h
  | succ c ih =>
    cases pre with
    | nil =>
      simp only [layers, List.nil_append, List.cons.injEq] at h
      obtain ⟨rfl, rfl⟩ := h
      simp
    | cons B pre =>
      simp only [layers, List.cons_append, List.cons.injEq] at h
      obtain ⟨hlt, hA, hAs⟩ := ih h.2
      exact ⟨by lia, hA, hAs⟩

theorem dropWhile_eq_filter (h : E.Pairwise fun newer older => older.1 ≤ newer.1) :
    E.dropWhile (k < ·.1) = E.filter (·.1 ≤ k) := dropWhile_eq_filter_of_sorted Prod.fst h

namespace Ordered

theorem nil : Ordered ([] : Timeline n) c where
  consistent := List.nodup_nil
  sorted := .nil
  le := by simp

theorem mono (h : E.Ordered c) (hck : c ≤ k) : E.Ordered k :=
  ⟨h.consistent, h.sorted, fun e he => Nat.le_trans (h.le e he) hck⟩

theorem cons (h : E.Ordered c) (hck : c ≤ k) (hl : E.literals.Open l) :
    Ordered ((k, l) :: E) k where
  consistent := Trail.consistent_cons.mpr ⟨hl, h.consistent⟩
  sorted := List.pairwise_cons.mpr ⟨fun e he => Nat.le_trans (h.le e he) hck, h.sorted⟩
  le := by
    intro e he
    rcases List.mem_cons.mp he with rfl | he
    · exact Nat.le_refl _
    · exact Nat.le_trans (h.le e he) hck

theorem filter (h : E.Ordered c) : Ordered (E.filter (·.1 ≤ k)) (min c k) where
  consistent := h.consistent.sublist ((List.filter_sublist).map _ |>.map _)
  sorted := h.sorted.filter _
  le := by
    intro e he
    obtain ⟨he, hle⟩ := List.mem_filter.mp he
    have hc := h.le e he
    simp only [decide_eq_true_eq] at hle
    lia

theorem literals_eq_upTo (h : E.Ordered c) (hck : c ≤ k) : E.upTo k = E.literals :=
  upTo_eq_literals fun e he => Nat.le_trans (h.le e he) hck

theorem filter_eq_self (h : E.Ordered c) (hck : c ≤ k) : E.filter (·.1 ≤ k) = E :=
  List.filter_eq_self.mpr fun e he => decide_eq_true (Nat.le_trans (h.le e he) hck)

end Ordered

end Timeline

end Dpll
