import Dpll.Proofs.Trail

/-! The literals that unit propagation can force from a base, as an inductive set. What it forces
holds in every model of the clauses and the base (`UnitClosure.holds`), and a consistent trail
that settles every clause contains all of it (`UnitClosure.mem_of_settles`). -/

namespace Dpll

variable {n : Nat}

/-- The least set of literals that contains the base and every literal of a clause whose other
literals have their negations in the set. -/
inductive UnitClosure (cs : List (List (BoundedLiteral n))) (base : BoundedLiteral n → Prop) :
    BoundedLiteral n → Prop
  | base : base l → UnitClosure cs base l
  | unit : c ∈ cs → l ∈ c → (∀ k ∈ c, k ≠ l → UnitClosure cs base (-k)) →
    UnitClosure cs base l

namespace UnitClosure

variable {cs : List (List (BoundedLiteral n))} {P Q : BoundedLiteral n → Prop}
  {l : BoundedLiteral n} {A : Trail n} {v : Valuation}

theorem mono (hPQ : ∀ l, P l → Q l) (h : UnitClosure cs P l) : UnitClosure cs Q l := by
  induction h with
  | base h => exact .base (hPQ _ h)
  | unit hc hl _ ih => exact .unit hc hl ih

/-- A base inside the closure adds nothing to it. -/
theorem trans (hPQ : ∀ l, Q l → UnitClosure cs P l) (h : UnitClosure cs Q l) :
    UnitClosure cs P l := by
  induction h with
  | base h => exact hPQ _ h
  | unit hc hl _ ih => exact .unit hc hl ih

theorem holds (hv : Models cs v) (hP : ∀ l, P l → l.Holds v) (h : UnitClosure cs P l) :
    l.Holds v := by
  induction h with
  | base h => exact hP _ h
  | @unit c l hc hl _ ih =>
    obtain ⟨k, hk, hholds⟩ := hv c hc
    by_cases hkl : k = l
    · rwa [← hkl]
    · exact absurd hholds (Literal.holds_neg.mp (ih k hk hkl))

/-- A clause all of whose literals are refuted leaves no model. -/
theorem not_models {c : List (BoundedLiteral n)} (hc : c ∈ cs)
    (h : ∀ k ∈ c, UnitClosure cs P (-k)) (hP : ∀ l, P l → l.Holds v) : ¬Models cs v := by
  intro hv
  obtain ⟨k, hk, hholds⟩ := hv c hc
  exact Literal.holds_neg.mp ((h k hk).holds hv hP) hholds

theorem mem_of_settles (hA : A.Consistent) (hcs : ∀ c ∈ cs, A.Settles c) (hP : ∀ l, P l → l ∈ A)
    (h : UnitClosure cs P l) : l ∈ A := by
  induction h with
  | base h => exact hP _ h
  | @unit c l hc hl _ ih =>
    rcases hcs c hc with ⟨k, hk, hkA⟩ | ⟨a, ha, b, hb, hne, hoa, hob⟩
    · by_cases hkl : k = l
      · rwa [← hkl]
      · exact absurd (ih k hk hkl) (hA.neg_not_mem hkA)
    · by_cases hal : a = l
      · exact absurd (ih b hb fun hbl => hne (hal.trans hbl.symm)) hob.2
      · exact absurd (ih a ha hal) hoa.2

/-- A settled trail between a base and its closure is the closure. -/
theorem iff_mem_of_settles (hA : A.Consistent) (hcs : ∀ c ∈ cs, A.Settles c) (hP : ∀ l, P l → l ∈ A)
    (hclosed : ∀ l ∈ A, UnitClosure cs P l) : UnitClosure cs P l ↔ l ∈ A :=
  ⟨mem_of_settles hA hcs hP, hclosed l⟩

end UnitClosure

/-- The trail `A` is `B` with literals on top that propagation can force. -/
def Forces (cs : List (List (BoundedLiteral n))) (B A : Trail n) : Prop :=
  ∃ new, A = new ++ B ∧ ∀ l ∈ new, UnitClosure cs (· ∈ B) l

namespace Forces

variable {cs : List (List (BoundedLiteral n))} {A B : Trail n} {v : Valuation}

theorem subset (h : Forces cs B A) : B ⊆ A := by
  obtain ⟨new, rfl, _⟩ := h
  exact List.subset_append_right new B

theorem closure (h : Forces cs B A) : ∀ l ∈ A, UnitClosure cs (· ∈ B) l := by
  obtain ⟨new, rfl, hnew⟩ := h
  intro l hl
  rcases List.mem_append.mp hl with hl | hl
  · exact hnew l hl
  · exact .base hl

theorem length_le (h : Forces cs B A) : B.length ≤ A.length := by
  obtain ⟨new, rfl, _⟩ := h
  rw [List.length_append]
  exact Nat.le_add_left _ _

theorem holds (h : Forces cs B A) (hv : Models cs v) (hB : ∀ l ∈ B, l.Holds v) :
    ∀ l ∈ A, l.Holds v := fun l hl => (h.closure l hl).holds hv hB

end Forces

end Dpll
