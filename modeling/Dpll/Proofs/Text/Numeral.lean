import Dpll.Proofs.Text.Words
import Dpll.Text.Numeral

/-! Printed numbers. A printed number is a word of digits, with a minus sign ahead if it is
negative, and reading it gives the number back (`Text.unsigned?_toString`,
`Text.int32?_toString`). -/

namespace Dpll.Text

variable {c : Char} {n bound : Nat}

/-- Whether a character may stand in a printed number. -/
def isNumeric (c : Char) : Bool := c.isDigit || c == '-'

theorem isBlank_of_isNumeric (h : isNumeric c = true) : isBlank c = false := by
  have hc : 0x2D ≤ c.toNat ∧ c.toNat ≤ 0x39 := by
    rcases Bool.or_eq_true_iff.mp h with hdigit | hminus
    · have hzero : '0'.toNat = 0x30 := rfl
      have hnine : '9'.toNat = 0x39 := rfl
      rw [Char.isDigit_iff_toNat] at hdigit
      omega
    · rw [eq_of_beq hminus]
      decide
  rw [Bool.eq_false_iff]
  intro hblank
  simp only [isBlank, blankRanges, List.any_cons, List.any_nil, Bool.or_false, Bool.or_eq_true,
    Bool.and_eq_true, decide_eq_true_eq] at hblank
  omega

theorem toList_toString (n : Nat) : (toString n).toList = Nat.toDigits 10 n := Nat.toList_repr

theorem isDigit_of_mem_toDigits (h : c ∈ Nat.toDigits 10 n) : c.isDigit = true :=
  Nat.isDigit_of_mem_toDigits (by decide) (by decide) h

theorem natural?_toDigits (n : Nat) : natural? (Nat.toDigits 10 n) = some n := by
  have hdigits : (Nat.toDigits 10 n).all Char.isDigit = true :=
    List.all_eq_true.mpr fun c hc => isDigit_of_mem_toDigits hc
  have hne : (Nat.toDigits 10 n).isEmpty = false := by simp [Nat.toDigits_ne_nil]
  rw [natural?, hdigits, hne, Nat.ofDigitChars_toDigits (by decide) (by decide)]
  rfl

theorem unsigned?_toString (h : n < bound) : unsigned? bound (toString n).toList = some n := by
  rw [toList_toString]
  unfold unsigned?
  split
  · next rest hplus =>
    have hdigit := isDigit_of_mem_toDigits (n := n) (hplus ▸ List.mem_cons_self)
    exact absurd hdigit (by decide)
  · simp [natural?_toDigits, h]

theorem toList_toString_negSucc (n : Nat) :
    (toString (Int.negSucc n)).toList = '-' :: Nat.toDigits 10 (n + 1) := by
  have hrepr : toString (Int.negSucc n) = "-" ++ toString (n + 1) := rfl
  rw [hrepr, String.toList_append, toList_toString]
  rfl

theorem isNumeric_of_mem_toString {n : Int} (h : c ∈ (toString n).toList) : isNumeric c = true := by
  cases n with
  | ofNat n =>
    have hdigit : c ∈ (toString n).toList := h
    rw [toList_toString] at hdigit
    rw [isNumeric, isDigit_of_mem_toDigits hdigit, Bool.true_or]
  | negSucc n =>
    rw [toList_toString_negSucc] at h
    rcases List.mem_cons.mp h with rfl | hdigit
    · rfl
    · rw [isNumeric, isDigit_of_mem_toDigits hdigit, Bool.true_or]

theorem isWord_toString (n : Int) : IsWord (toString n).toList where
  ne_nil := by
    cases n with
    | ofNat n =>
      have hne : (toString n).toList ≠ [] := toList_toString n ▸ Nat.toDigits_ne_nil
      exact hne
    | negSucc n => rw [toList_toString_negSucc]; exact List.cons_ne_nil _ _
  isBlank_eq _ hc := isBlank_of_isNumeric (isNumeric_of_mem_toString hc)

theorem isWord_toString_nat (n : Nat) : IsWord (toString n).toList := isWord_toString n

theorem int32?_toString (n : Int32) : int32? (toString n.toInt).toList = some n := by
  cases hn : n.toInt with
  | ofNat m =>
    have hm : m < signBound := by
      have hlt := n.toInt_lt
      rw [hn] at hlt
      exact Int.ofNat_lt.mp hlt
    have hread : unsigned? signBound (toString (Int.ofNat m)).toList = some m :=
      unsigned?_toString hm
    unfold int32?
    split
    · next digits hminus =>
      have hdigits : Nat.toDigits 10 m = '-' :: digits := (toList_toString m).symm.trans hminus
      have hdigit := isDigit_of_mem_toDigits (n := m) (hdigits ▸ List.mem_cons_self)
      exact absurd hdigit (by decide)
    · rw [hread]
      exact congrArg some ((congrArg Int32.ofInt hn.symm).trans (Int32.ofInt_toInt n))
  | negSucc m =>
    have hm : m + 1 ≤ signBound := by
      have hle := n.le_toInt
      rw [hn] at hle
      rw [signBound]
      omega
    rw [toList_toString_negSucc, int32?, natural?_toDigits, Option.bind_some, if_pos hm]
    exact congrArg some ((congrArg Int32.ofInt hn.symm).trans (Int32.ofInt_toInt n))

end Dpll.Text
