/-! A pseudo-random generator of 64-bit words, and fair choice from a list. A word is turned
into a position below `n` by taking the high half of its product with `n`; words whose low half
falls into the uneven remainder are drawn again. Whatever is drawn, `Generator.below_lt` holds. -/

namespace Dpll

/-- The state of the generator. -/
structure Generator where
  state : UInt64
deriving DecidableEq, Repr

namespace Generator

/-- The generator that starts from a seed. -/
def ofSeed (seed : UInt64) : Generator := ⟨seed⟩

/-- The next word: the two halves of a 128-bit product of the advanced state, folded. -/
def next (g : Generator) : UInt64 × Generator :=
  let state := g.state + 0x2d358dccaa6c78a5
  let product := state.toNat * (state ^^^ 0x8bb84b93962eacc9).toNat
  (UInt64.ofNat product ^^^ UInt64.ofNat (product / UInt64.size), ⟨state⟩)

/-- The high half of the product of a word and `n`, after drawing again, at most `rounds`
times, while the low half is below `threshold`. -/
def redraw (n threshold : Nat) : (rounds : Nat) → UInt64 → Generator → Nat × Generator
  | 0, word, g => (word.toNat * n / UInt64.size, g)
  | rounds + 1, word, g =>
    if word.toNat * n % UInt64.size < threshold then
      let (word, g) := g.next
      redraw n threshold rounds word g
    else (word.toNat * n / UInt64.size, g)

/-- A position below `n`, every one equally likely. After as many draws as there are words the
generator is back where it started, so more of them would find nothing new. -/
def below (g : Generator) (n : Nat) : Nat × Generator :=
  let (word, g) := g.next
  if word.toNat * n % UInt64.size < n then redraw n ((UInt64.size - n) % n) UInt64.size word g
  else (word.toNat * n / UInt64.size, g)

/-- One of the elements of a list; an empty list leaves the generator alone. -/
def choose (g : Generator) (as : List α) : Option α × Generator :=
  match as with
  | [] => (none, g)
  | _ :: _ =>
    let drawn := g.below as.length
    (as[drawn.1]?, drawn.2)

private theorem high_lt (word : UInt64) {n : Nat} (h : 0 < n) :
    word.toNat * n / UInt64.size < n := by
  rw [Nat.div_lt_iff_lt_mul (by decide), Nat.mul_comm]
  exact Nat.mul_lt_mul_of_pos_left word.toNat_lt_size h

private theorem redraw_lt {n : Nat} (h : 0 < n) (threshold rounds : Nat) (word : UInt64)
    (g : Generator) : (redraw n threshold rounds word g).1 < n := by
  induction rounds generalizing word g with
  | zero => exact high_lt word h
  | succ rounds ih =>
    unfold redraw
    split
    · exact ih _ _
    · exact high_lt word h

theorem below_lt (g : Generator) {n : Nat} (h : 0 < n) : (g.below n).1 < n := by
  unfold below
  dsimp only
  split
  · exact redraw_lt h _ _ _ _
  · exact high_lt _ h

end Generator

end Dpll
