import Dpll.Cnf
import Dpll.Proofs.Plain.Table
import Dpll.Proofs.Rounds

/-! The adjacency-list formula with its tables addressed by plain numbers. -/

namespace Dpll.Plain

/-- A clause that shrinks, with plain literals. A removal is given by its level, position and
literal. -/
structure ShrinkingClause where
  live : List Literal
  /-- The literals taken out, newest first. -/
  removals : List (Level × Nat × Literal)
  satisfiedAt : Option Level

namespace ShrinkingClause

/-- The clause of the given literals, a repeated literal kept once. -/
def ofLiterals (ls : List Literal) : ShrinkingClause := ⟨ls.eraseDups, [], none⟩

/-- Whether a true literal was seen. -/
def isSatisfied (c : ShrinkingClause) : Bool := c.satisfiedAt.isSome

/-- Whether every literal is falsified. -/
def isUnsatisfiable (c : ShrinkingClause) : Bool := !c.isSatisfied && c.live.isEmpty

/-- Whether one literal is left of a clause that is not satisfied. -/
def isUnit (c : ShrinkingClause) : Bool := !c.isSatisfied && c.live.length == 1

/-- Makes a literal true. -/
def assign? (c : ShrinkingClause) (l : Literal) (level : Level) : Option ShrinkingClause :=
  if !c.isSatisfied && c.live.contains l then some { c with satisfiedAt := some level }
  else
    match c.live.idxOf? (-l) with
    | some position => do
      let live ← remove? c.live position
      return { c with live, removals := (level, position, -l) :: c.removals }
    | none => some c

/-- Puts back the newest removals as long as they lie above `level`. -/
def reinsert? (level : Level) : List Literal → List (Level × Nat × Literal) →
    Option (List Literal × List (Level × Nat × Literal))
  | live, [] => some (live, [])
  | live, r :: rs =>
    if r.1 ≤ level then some (live, r :: rs)
    else do
      let live ← insert? live r.2.1 r.2.2
      reinsert? level live rs

/-- Undoes what happened to the clause above `level`. -/
def backtrack? (c : ShrinkingClause) (level : Level) : Option ShrinkingClause := do
  let (live, removals) ← reinsert? level c.live c.removals
  return ⟨live, removals, c.satisfiedAt.filter (· ≤ level)⟩

end ShrinkingClause

/-- The adjacency-list formula. Clauses, variables and levels are numbers. -/
structure Adjacency where
  clauses : Array ShrinkingClause
  /-- The clauses that mention a variable. -/
  occurrences : Array (Array Nat)
  /-- The literals recorded at a level, in order. -/
  assigned : Array (Array Literal)
  unsatisfiableAt : Option Level
  propagationSteps : Nat

namespace Adjacency

/-- For every variable the clauses that mention it, each once. -/
def occurrencesOf? (numVars : Nat) (clauses : Array ShrinkingClause) :
    Option (Array (Array Nat)) :=
  (List.range clauses.size).foldlM
    (fun table i => do
      let c ← clauses[i]?
      (c.live.map (·.var.toNat)).eraseDups.foldlM
        (fun table v => update? table v fun is => some (is.push i)) table)
    (Array.replicate numVars #[])

/-- The formula of the given clauses over `numVars` variables. -/
def ofClauses? (numVars : Nat) (cs : List Clause) : Option Adjacency := do
  let clauses := (cs.map ShrinkingClause.ofLiterals).toArray
  let occurrences ← occurrencesOf? numVars clauses
  return {
    clauses
    occurrences
    assigned := #[]
    unsatisfiableAt := if clauses.any (·.isUnsatisfiable) then some 0 else none
    propagationSteps := 0 }

/-- Shows a true literal to one of the clauses that mention its variable. -/
def visit? (l : Literal) (level : Level) (f : Adjacency) (i : Nat) : Option Adjacency := do
  let clauses ← update? f.clauses i (·.assign? l level)
  let c ← clauses[i]?
  return { f with
    clauses
    unsatisfiableAt :=
      if c.isUnsatisfiable then f.unsatisfiableAt.or (some level) else f.unsatisfiableAt }

/-- Makes a literal true at a level, after adding the levels up to it if they are not there. -/
def assign? (f : Adjacency) (l : Literal) (level : Level) : Option Adjacency := do
  let grown := f.assigned ++ Array.replicate (level + 1 - f.assigned.size) #[]
  let assigned ← update? grown level fun ls => some (ls.push l)
  let visited ← f.occurrences[l.var.toNat]?
  visited.toList.foldlM (visit? l level) { f with assigned }

/-- The literal of the first unit clause. -/
def unitLiteral? (f : Adjacency) : Option (Option Literal) :=
  match f.clauses.toList.find? (·.isUnit) with
  | none => some none
  | some c => c.live[0]?.map some

/-- Forces the literals of unit clauses until there is none or a clause is falsified, if that takes fewer
than the given number of rounds. -/
def propagateFor? (level : Level) : (rounds : Nat) → Adjacency → Option Adjacency
  | 0, _ => none
  | rounds + 1, f =>
    if f.unsatisfiableAt.isSome then some f
    else do
      match ← f.unitLiteral? with
      | none => some f
      | some l =>
        let f ← f.assign? l level
        propagateFor? level rounds { f with propagationSteps := f.propagationSteps + 1 }

/-- Forces the literals of unit clauses until there is none or a clause is falsified. Every round
satisfies a clause, so that the rounds suffice (`Restorable.unitPropagate?_plain`). -/
def unitPropagate? (f : Adjacency) (level : Level) : Option Adjacency :=
  propagateFor? level (f.clauses.size + 1) f

/-- Undoes in the clauses that mention the variable of a literal. -/
def undo? (occurrences : Array (Array Nat)) (level : Level) (clauses : Array ShrinkingClause)
    (l : Literal) : Option (Array ShrinkingClause) := do
  let visited ← occurrences[l.var.toNat]?
  visited.toList.foldlM (fun clauses i => update? clauses i (·.backtrack? level)) clauses

/-- Undoes what was assigned above `level`. -/
def backtrack? (f : Adjacency) (level : Level) : Option Adjacency := do
  let (assigned, undone) ← cut? f.assigned (level + 1)
  let clauses ← (undone.toList.flatMap Array.toList).foldlM (undo? f.occurrences level) f.clauses
  return { f with
    clauses
    assigned
    unsatisfiableAt := f.unsatisfiableAt.filter (· ≤ level) }

/-- The literals made true, level by level. -/
def assignment (f : Adjacency) : List Literal := f.assigned.toList.flatMap Array.toList

/-- The live literals of every clause that is neither satisfied nor falsified. -/
def liveClauses (f : Adjacency) : List (List Literal) :=
  (f.clauses.toList.filter fun c => !c.isSatisfied && !c.live.isEmpty).map (·.live)

end Adjacency

end Dpll.Plain

namespace Dpll

variable {n m : Nat}

/-! ### Clauses -/

namespace ShrinkingClause

variable {c : ShrinkingClause n} {l : BoundedLiteral n} {k : Level}
  {live ls : List (BoundedLiteral n)} {rs : List (Removal n)}

/-- A removal as numbers and a plain literal. -/
def Removal.plain (r : Removal n) : Level × Nat × Literal := (r.level, r.position, r.literal.toLiteral)

/-- The clause with plain literals. -/
def plain (c : ShrinkingClause n) : Plain.ShrinkingClause :=
  ⟨c.live.map (·.toLiteral), c.removals.map Removal.plain, c.satisfiedAt⟩

theorem plain_ofLiterals : (ofLiterals ls).plain = .ofLiterals (ls.map (·.toLiteral)) := by
  rw [plain, ofLiterals, Plain.ShrinkingClause.ofLiterals,
    eraseDups_map BoundedLiteral.toLiteral_injective]
  rfl

theorem isUnsatisfiable_plain : c.plain.isUnsatisfiable = c.isUnsatisfiable := by
  simp [Plain.ShrinkingClause.isUnsatisfiable, Plain.ShrinkingClause.isSatisfied, plain,
    isUnsatisfiable, isSatisfied]

theorem isUnit_plain : c.plain.isUnit = true ↔ ∃ l, c.unitLiteral? = some l := by
  have hsatisfied : c.plain.isSatisfied = c.isSatisfied := rfl
  have hlength : c.plain.live.length = c.live.length := List.length_map _
  simp only [unitLiteral?_eq_some, Plain.ShrinkingClause.isUnit, hsatisfied, hlength,
    Bool.and_eq_true, Bool.not_eq_true', beq_iff_eq, List.length_eq_one_iff, exists_and_left]

/-- A literal is taken out at a position of the clause. -/
theorem assign?_plain : c.plain.assign? l.toLiteral k = some (c.assign l k).plain := by
  rw [Plain.ShrinkingClause.assign?, ShrinkingClause.assign]
  have hcontains : c.plain.live.contains l.toLiteral = c.live.contains l :=
    BoundedLiteral.contains_map_toLiteral
  have hidx : c.plain.live.idxOf? (-l.toLiteral) = c.live.idxOf? (-l) :=
    BoundedLiteral.idxOf?_map_toLiteral (l := -l)
  have hsatisfied : c.plain.isSatisfied = c.isSatisfied := rfl
  rw [hcontains, hidx, hsatisfied]
  split
  · rfl
  · cases hp : c.live.idxOf? (-l) with
    | none => rfl
    | some p =>
      obtain ⟨hlt, -, -⟩ := List.idxOf?_eq_some_iff.mp hp
      have hremove : Plain.remove? c.plain.live p = some ((c.live.eraseIdx p).map (·.toLiteral)) := by
        rw [Plain.remove?, plain, List.length_map, if_pos hlt, List.eraseIdx_map]
      dsimp only
      rw [hremove]
      rfl

/-- A literal goes back to a position of the clause, or to its end. -/
theorem reinsert?_plain (h : putBack? live rs = some ls) :
    Plain.ShrinkingClause.reinsert? k (live.map (·.toLiteral)) (rs.map Removal.plain) =
      some (((reinsert k live rs).1.map (·.toLiteral)), (reinsert k live rs).2.map Removal.plain) := by
  induction rs generalizing live with
  | nil => rfl
  | cons r rs ih =>
    obtain ⟨hle, h⟩ := putBack?_cons_eq_some.mp h
    rw [List.map_cons, Plain.ShrinkingClause.reinsert?, reinsert, Removal.plain]
    by_cases hlevel : r.level ≤ k
    · rw [if_pos hlevel, if_pos hlevel]
      rfl
    · have hinsert : Plain.insert? (live.map (·.toLiteral)) r.position r.literal.toLiteral =
          some ((live.insertIdx r.position r.literal).map (·.toLiteral)) := by
        rw [Plain.insert?, List.length_map, if_pos hle, List.map_insertIdx]
      rw [if_neg hlevel, if_neg hlevel, hinsert]
      exact ih h

theorem backtrack?_plain (h : c.restored? = some ls) :
    c.plain.backtrack? k = some (c.backtrack k).plain := by
  rw [Plain.ShrinkingClause.backtrack?, plain, reinsert?_plain h]
  rfl

end ShrinkingClause

/-! ### Levels -/

/-- In a list of falling levels, those of level `k` come after those above. -/
theorem Timeline.filter_le_eq_append {E : Timeline n}
    (h : E.Pairwise fun newer older => older.1 ≤ newer.1) (k : Level) :
    E.filter (k ≤ ·.1) = E.filter (k + 1 ≤ ·.1) ++ E.filter (·.1 == k) := by
  induction E with
  | nil => rfl
  | cons e E ih =>
    obtain ⟨he, hE⟩ := List.pairwise_cons.mp h
    rcases Nat.lt_trichotomy e.1 k with hlt | heq | hgt
    · rw [List.filter_cons_of_neg (by simpa using hlt), ih hE,
        List.filter_cons_of_neg (by simpa using Nat.lt_succ_of_lt hlt),
        List.filter_cons_of_neg (by simpa using Nat.ne_of_lt hlt)]
    · have habove : E.filter (k + 1 ≤ ·.1) = [] := by
        rw [List.filter_eq_nil_iff]
        intro x hx hk
        exact Nat.not_le_of_lt (of_decide_eq_true hk) (heq ▸ he x hx)
      rw [List.filter_cons_of_pos (by simp [heq]), ih hE, habove,
        List.filter_cons_of_neg (by simp [heq]), habove, List.filter_cons_of_pos (by simp [heq])]
      rfl
    · have habove : k + 1 ≤ e.1 := hgt
      rw [List.filter_cons_of_pos (by simpa using Nat.le_of_lt hgt), ih hE,
        List.filter_cons_of_pos (by simpa using habove),
        List.filter_cons_of_neg (by simpa using Nat.ne_of_gt hgt), List.cons_append]

namespace LevelTrail

variable {t : LevelTrail n} {as : Array (Array Literal)} {l : BoundedLiteral n} {k : Level}

/-- Entry `k` of the table lists the literals of level `k` in order of recording. -/
def IsTable (t : LevelTrail n) (as : Array (Array Literal)) : Prop :=
  ∀ k, (as[k]?.getD #[]).toList =
    ((t.entries.filter (·.1 == k)).map (·.2.toLiteral)).reverse

theorem isTable_empty : (empty : LevelTrail n).IsTable #[] := fun k => by simp [empty]

/-- A literal is recorded in the entry of its level, which is there once the table has grown. -/
theorem IsTable.record (h : t.IsTable as) :
    ∃ as', Plain.update? (as ++ Array.replicate (k + 1 - as.size) #[]) k
      (fun ls => some (ls.push l.toLiteral)) = some as' ∧ (t.record l k).IsTable as' := by
  have hgrown (j : Nat) : (as ++ Array.replicate (k + 1 - as.size) #[])[j]?.getD #[] =
      as[j]?.getD #[] := by
    rw [Array.getElem?_append]
    split
    · rfl
    · next hj =>
      rw [Array.getElem?_replicate, Array.getElem?_eq_none (Nat.le_of_not_lt hj)]
      split <;> rfl
  have hlt : k < (as ++ Array.replicate (k + 1 - as.size) #[]).size := by
    rw [Array.size_append, Array.size_replicate]
    lia
  refine ⟨(as ++ Array.replicate (k + 1 - as.size) #[]).setIfInBounds k
    ((as[k]?.getD #[]).push l.toLiteral), ?_, fun j => ?_⟩
  · have hk := hgrown k
    rw [Array.getElem?_eq_getElem hlt, Option.getD_some] at hk
    rw [Plain.update?, Array.getElem?_eq_getElem hlt, hk]
    rfl
  · have hsplit := List.takeWhile_append_dropWhile (p := (k < ·.1)) (l := t.entries)
    rw [Array.getElem?_setIfInBounds, LevelTrail.record, List.filter_append]
    by_cases hj : k = j
    · subst hj
      have habove : (t.entries.takeWhile (k < ·.1)).filter (·.1 == k) = [] := by
        rw [List.filter_eq_nil_iff]
        intro e he
        have hk : k < e.1 := by simpa using List.mem_takeWhile_imp he
        simpa using Nat.ne_of_gt hk
      have hold := h k
      rw [← hsplit, List.filter_append, habove, List.nil_append] at hold
      rw [if_pos rfl, if_pos hlt, Option.getD_some, Array.toList_push, hold, habove, List.nil_append,
        List.filter_cons_of_pos (by simp), List.map_cons, List.reverse_cons]
    · rw [if_neg hj, hgrown, h j, List.filter_cons_of_neg (by simpa using hj), ← List.filter_append,
        hsplit]

variable (hsorted : t.entries.Pairwise fun newer older => older.1 ≤ newer.1)
include hsorted

theorem IsTable.keepUpTo (h : t.IsTable as) : (t.keepUpTo k).IsTable (as.take (k + 1)) := by
  intro j
  rw [LevelTrail.keepUpTo, Timeline.dropWhile_eq_filter hsorted, List.filter_filter, Array.take,
    Array.getElem?_extract]
  by_cases hj : j ≤ k
  · have hfilter : t.entries.filter (fun e => e.1 == j && decide (e.1 ≤ k)) =
        t.entries.filter (·.1 == j) := by
      refine List.filter_congr fun e _ => ?_
      cases he : e.1 == j with
      | false => rfl
      | true => simpa [beq_iff_eq.mp he] using hj
    have hentry : (if j < min (k + 1) as.size - 0 then as[0 + j]? else none) = as[j]? := by
      rw [Nat.zero_add]
      split
      · rfl
      · rw [Array.getElem?_eq_none (by lia)]
    rw [hfilter, hentry, h j]
  · have hfilter : t.entries.filter (fun e => e.1 == j && decide (e.1 ≤ k)) = [] := by
      rw [List.filter_eq_nil_iff]
      intro e _ he
      rw [Bool.and_eq_true, beq_iff_eq, decide_eq_true_eq] at he
      exact hj (he.1 ▸ he.2)
    rw [hfilter, if_neg (by lia)]
    rfl

/-- The entries of the table from `k` on are the literals recorded at level `k` or above. -/
theorem IsTable.flatMap_drop (h : t.IsTable as) (k : Level) :
    (as.toList.drop k).flatMap Array.toList =
      ((t.entries.filter (k ≤ ·.1)).map (·.2.toLiteral)).reverse := by
  induction hrest : as.size - k generalizing k with
  | zero =>
    have hnone : t.entries.filter (k ≤ ·.1) = [] := by
      rw [List.filter_eq_nil_iff]
      intro e he hk
      have hmem : e ∈ t.entries.filter (·.1 == e.1) := List.mem_filter.mpr ⟨he, beq_self_eq_true _⟩
      have hentry := h e.1
      rw [Array.getElem?_eq_none (Nat.le_trans (by lia) (of_decide_eq_true hk))] at hentry
      have hempty : t.entries.filter (·.1 == e.1) = [] := by simpa using hentry.symm
      rw [hempty] at hmem
      exact absurd hmem List.not_mem_nil
    rw [List.drop_eq_nil_of_le (by rw [Array.length_toList]; lia), hnone]
    rfl
  | succ rest ih =>
    have hlt : k < as.size := by lia
    have hentry := h k
    rw [Array.getElem?_eq_getElem hlt, Option.getD_some] at hentry
    rw [List.drop_eq_getElem_cons (by simpa using hlt), List.flatMap_cons, Array.getElem_toList,
      hentry, ih (k + 1) (by lia), Timeline.filter_le_eq_append hsorted k, List.map_append,
      List.reverse_append]

theorem IsTable.flatMap_toList (h : t.IsTable as) :
    as.toList.flatMap Array.toList = t.toList.map (·.toLiteral) := by
  have hdrop := h.flatMap_drop hsorted 0
  have hall : t.entries.filter (0 ≤ ·.1) = t.entries := List.filter_eq_self.mpr (by simp)
  rw [hall] at hdrop
  rw [toList, List.map_reverse, List.map_map]
  exact hdrop

end LevelTrail

/-! ### The formula -/

namespace Adjacency

variable {f g : Adjacency n m} {l : BoundedLiteral n} {k : Level} {i : Fin m}
  {as : Array (Array Literal)} {ls : List (BoundedLiteral n)}

/-- The formula with its tables addressed by numbers, the literals of its levels being in a table of
their own. -/
def plain (f : Adjacency n m) (as : Array (Array Literal)) : Plain.Adjacency where
  clauses := f.clauses.toArray.map (·.plain)
  occurrences := f.occurrences.toArray.map (·.map Fin.val)
  assigned := as
  unsatisfiableAt := f.unsatisfiableAt
  propagationSteps := f.propagationSteps

theorem occurrencesOf?_plain (clauses : Vector (ShrinkingClause n) m) :
    Plain.Adjacency.occurrencesOf? n (clauses.toArray.map (·.plain)) =
      some ((occurrencesOf clauses).toArray.map (·.map Fin.val)) := by
  let img (table : Vector (Array (Fin m)) n) : Array (Array Nat) := table.toArray.map (·.map Fin.val)
  have hpush (i : Fin m) (vs : List (Fin n)) (table : Vector (Array (Fin m)) n) :
      (vs.map Fin.val).foldlM (fun table v => Plain.update? table v fun is => some (is.push i.val))
        (img table) = some (img (vs.foldl (fun table v => modifyAt table v (·.push i)) table)) :=
    (Plain.foldlM_image (fun _ => True)
      (fun table v _ _ => ⟨Plain.update?_image table v (by rw [Array.map_push]), trivial⟩) trivial).1
  have hstep (table : Vector (Array (Fin m)) n) (i : Fin m) :
      (do
        let c ← (clauses.toArray.map (·.plain))[i.val]?
        (c.live.map (·.var.toNat)).eraseDups.foldlM
          (fun table v => Plain.update? table v fun is => some (is.push i.val)) (img table)) =
        some (img (((clauses.get i).live.map (·.position)).eraseDups.foldl
          (fun table v => modifyAt table v (·.push i)) table)) := by
    have hvars : ((clauses.get i).plain.live.map (·.var.toNat)).eraseDups =
        ((clauses.get i).live.map (·.position)).eraseDups.map Fin.val := by
      rw [← eraseDups_map Fin.val_injective, ShrinkingClause.plain, List.map_map, List.map_map]
      rfl
    rw [Plain.getElem?_image, Option.bind_eq_bind, Option.bind_some, hvars, hpush]
  have hsize : (clauses.toArray.map (·.plain)).size = m := by simp
  have hstart : Array.replicate n #[] = img (.replicate n #[]) := by simp [img]
  rw [Plain.Adjacency.occurrencesOf?, hsize, ← List.map_coe_finRange_eq_range, hstart]
  exact (Plain.foldlM_image (fun _ => True) (fun table i _ _ => ⟨hstep table i, trivial⟩) trivial).1

theorem ofClauses?_plain (cs : List (List (BoundedLiteral n))) :
    Plain.Adjacency.ofClauses? n (cs.map (List.map (·.toLiteral))) =
      some ((ofClauses cs).plain #[]) := by
  have hclauses : ((cs.map (List.map (·.toLiteral))).map Plain.ShrinkingClause.ofLiterals).toArray =
      (ofClauses cs).clauses.toArray.map (·.plain) := by
    rw [ofClauses, List.map_toArray, List.map_map, List.map_map]
    congr 2
    exact funext fun ls => ShrinkingClause.plain_ofLiterals.symm
  have hunsatisfiable : ((ofClauses cs).clauses.toArray.map (·.plain)).any (·.isUnsatisfiable) =
      (ofClauses cs).clauses.any (·.isUnsatisfiable) := by
    rw [Array.any_map, Vector.any]
    congr 1
    exact funext fun c => ShrinkingClause.isUnsatisfiable_plain
  rw [Plain.Adjacency.ofClauses?, hclauses, occurrencesOf?_plain, hunsatisfiable]
  rfl

theorem visit?_plain : Plain.Adjacency.visit? l.toLiteral k (f.plain as) i.val =
    some ((visit l k f i).plain as) := by
  have hupdate : Plain.update? (f.clauses.toArray.map (·.plain)) i.val (·.assign? l.toLiteral k) =
      some ((modifyAt f.clauses i (·.assign l k)).toArray.map (·.plain)) :=
    Plain.update?_image f.clauses i ShrinkingClause.assign?_plain
  rw [Plain.Adjacency.visit?, plain, hupdate, Option.bind_eq_bind, Option.bind_some,
    Plain.getElem?_image, Option.bind_eq_bind, Option.bind_some,
    ShrinkingClause.isUnsatisfiable_plain, visit]
  dsimp only
  split <;> rfl

/-- No look-up fails when a literal is made true. -/
theorem assign?_plain (h : f.assigned.IsTable as) :
    ∃ as', (f.plain as).assign? l.toLiteral k = some ((f.assign l k).plain as') ∧
      (f.assign l k).assigned.IsTable as' := by
  obtain ⟨as', hrecord, htable⟩ := h.record (l := l) (k := k)
  refine ⟨as', ?_, assigned_assign ▸ htable⟩
  have hloop := (Plain.foldlM_image (fun _ => True) (g := Fin.val) (e := fun f => f.plain as')
    (s := (f.occurrences.get l.position).toList)
    (fun g i _ _ => ⟨visit?_plain (f := g) (l := l) (k := k) (i := i), trivial⟩)
    (a := { f with assigned := f.assigned.record l k }) trivial).1
  have hvisited : (f.plain as).occurrences[l.toLiteral.var.toNat]? =
      some ((f.occurrences.get l.position).map Fin.val) :=
    Plain.getElem?_image f.occurrences (·.map Fin.val) l.position
  have hassigned : (f.plain as).assigned = as := rfl
  rw [Plain.Adjacency.assign?, hassigned, hrecord, hvisited, Adjacency.assign, ← Array.foldl_toList,
    ← hloop, ← Array.toList_map]
  rfl

/-- The only literal of a unit clause is there. -/
theorem unitLiteral?_plain : (f.plain as).unitLiteral? =
    some (f.unitLiteral?.map (·.toLiteral)) := by
  have hlist (cs : List (ShrinkingClause n)) :
      (match (cs.map (·.plain)).find? (·.isUnit) with
        | none => some none
        | some c => c.live[0]?.map some) =
        some ((cs.findSome? (·.unitLiteral?)).map (·.toLiteral)) := by
    induction cs with
    | nil => rfl
    | cons c cs ih =>
      rw [List.map_cons, List.findSome?_cons]
      cases hunit : c.unitLiteral? with
      | some l =>
        rw [List.find?_cons_of_pos (ShrinkingClause.isUnit_plain.mpr ⟨l, hunit⟩)]
        simp [ShrinkingClause.plain, ((ShrinkingClause.unitLiteral?_eq_some c).mp hunit).2]
      | none =>
        have hnot : ¬c.plain.isUnit = true := by
          intro hfirst
          obtain ⟨l, hl⟩ := ShrinkingClause.isUnit_plain.mp hfirst
          rw [hunit] at hl
          cases hl
        rw [List.find?_cons_of_neg hnot, ih]
  have hclauses : (f.plain as).clauses.toList = f.clauses.toList.map (·.plain) :=
    Array.toList_map
  rw [Plain.Adjacency.unitLiteral?, hclauses, hlist, unitLiteral?, Vector.findSome?_toList]

/-- No look-up fails in the rounds of propagation. -/
theorem propagateFor?_plain (h : Rounds k f ls g) {rounds : Nat} (hrounds : ls.length < rounds)
    (htable : f.assigned.IsTable as) :
    ∃ as', Plain.Adjacency.propagateFor? k rounds (f.plain as) = some (g.plain as') ∧
      g.assigned.IsTable as' := by
  induction h generalizing as rounds with
  | @conflict f hu =>
    refine ⟨as, ?_, htable⟩
    obtain ⟨rounds, rfl⟩ := Nat.exists_eq_add_one_of_ne_zero (Nat.ne_zero_of_lt hrounds)
    rw [Plain.Adjacency.propagateFor?]
    exact if_pos hu
  | @settled f hu hl =>
    have hu' : ¬(f.plain as).unsatisfiableAt.isSome = true := Bool.not_eq_true _ ▸ hu
    refine ⟨as, ?_, htable⟩
    obtain ⟨rounds, rfl⟩ := Nat.exists_eq_add_one_of_ne_zero (Nat.ne_zero_of_lt hrounds)
    rw [Plain.Adjacency.propagateFor?, if_neg hu', unitLiteral?_plain, hl]
    rfl
  | @force f l ls g hu hl _ ih =>
    obtain ⟨rounds, rfl⟩ := Nat.exists_eq_add_one_of_ne_zero (Nat.ne_zero_of_lt hrounds)
    obtain ⟨as₁, hassign, htable₁⟩ := assign?_plain (l := l) (k := k) htable
    obtain ⟨as', hrest, htable'⟩ := ih (Nat.lt_of_succ_lt_succ hrounds) htable₁
    refine ⟨as', ?_, htable'⟩
    have hu' : ¬(f.plain as).unsatisfiableAt.isSome = true := Bool.not_eq_true _ ▸ hu
    rw [Plain.Adjacency.propagateFor?, if_neg hu', unitLiteral?_plain, hl, Option.map_some,
      Option.bind_eq_bind, Option.bind_some]
    dsimp only
    rw [hassign, Option.bind_eq_bind, Option.bind_some]
    exact hrest

/-- No look-up fails in unit propagation, which comes to an end. -/
theorem Restorable.unitPropagate?_plain {cs : List (List (BoundedLiteral n))}
    {f : Adjacency n cs.length} (h : Restorable cs f) (htable : f.assigned.IsTable as) :
    ∃ as', (f.plain as).unitPropagate? k = some ((f.unitPropagate k).plain as') ∧
      (f.unitPropagate k).assigned.IsTable as' := by
  obtain ⟨ls, hrounds, hlength⟩ := h.rounds_propagateFor (k := k) (Nat.le_refl f.numUnsatisfied)
  have hle : f.numUnsatisfied ≤ cs.length := Vector.countP_le_size
  have hsize : (f.plain as).clauses.size = cs.length := by simp [plain]
  refine propagateFor?_plain hrounds ?_ htable
  lia

/-- Undoes in the clauses that mention the variable of a literal. -/
def undo (occurrences : Vector (Array (Fin m)) n) (k : Level)
    (clauses : Vector (ShrinkingClause n) m) (l : BoundedLiteral n) : Vector (ShrinkingClause n) m :=
  (occurrences.get l.position).foldl (fun clauses i => modifyAt clauses i (·.backtrack k)) clauses

theorem undo?_plain {clauses : Vector (ShrinkingClause n) m}
    (h : ∀ i, ∃ ls, (clauses.get i).restored? = some ls) :
    Plain.Adjacency.undo? (f.occurrences.toArray.map (·.map Fin.val)) k
        (clauses.toArray.map (·.plain)) l.toLiteral =
      some ((undo f.occurrences k clauses l).toArray.map (·.plain)) ∧
      ∀ i, ∃ ls, ((undo f.occurrences k clauses l).get i).restored? = some ls := by
  have hvisited : (f.occurrences.toArray.map (·.map Fin.val))[l.toLiteral.var.toNat]? =
      some ((f.occurrences.get l.position).map Fin.val) :=
    Plain.getElem?_image f.occurrences (·.map Fin.val) l.position
  rw [Plain.Adjacency.undo?, hvisited, Option.bind_eq_bind, Option.bind_some, Array.toList_map,
    undo, ← Array.foldl_toList]
  refine Plain.foldlM_image
    (e := fun clauses : Vector (ShrinkingClause n) m => clauses.toArray.map (·.plain))
    (fun clauses => ∀ i, ∃ ls, (clauses.get i).restored? = some ls)
    (fun clauses i hP _ => ⟨?_, fun j => ?_⟩) h
  · obtain ⟨ls, hls⟩ := hP i
    exact Plain.update?_image clauses i (ShrinkingClause.backtrack?_plain hls)
  · obtain ⟨ls, hls⟩ := hP j
    refine ⟨ls, ?_⟩
    rw [get_modifyAt]
    split
    · exact ShrinkingClause.restored?_backtrack hls
    · exact hls

/-- What undoing does depends on the literals that are forgotten, not on their order. -/
theorem foldl_undo_congr {ls ls' : List (BoundedLiteral n)} (h : ∀ l, l ∈ ls ↔ l ∈ ls')
    (occurrences : Vector (Array (Fin m)) n) (clauses : Vector (ShrinkingClause n) m) :
    ls.foldl (undo occurrences k) clauses = ls'.foldl (undo occurrences k) clauses := by
  refine Vector.ext fun i hi => ?_
  have hget := get_foldl_backtrack (k := k) ls occurrences clauses ⟨i, hi⟩
  have hget' := get_foldl_backtrack (k := k) ls' occurrences clauses ⟨i, hi⟩
  simp only [h] at hget
  exact hget.trans hget'.symm

/-- No look-up fails when literals are forgotten, and every literal goes back to a position of its
clause. -/
theorem backtrack?_plain (hrestored : ∀ i, ∃ ls, (f.clauses.get i).restored? = some ls)
    (hsorted : f.assigned.entries.Pairwise fun newer older => older.1 ≤ newer.1)
    (htable : f.assigned.IsTable as) :
    ∃ as', (f.plain as).backtrack? k = some ((f.backtrack k).plain as') ∧
      (f.backtrack k).assigned.IsTable as' := by
  let forgotten := ((f.assigned.entries.filter (k + 1 ≤ ·.1)).map (·.2)).reverse
  have hundone : (as.drop (k + 1)).toList.flatMap Array.toList = forgotten.map (·.toLiteral) := by
    rw [Plain.toList_drop, htable.flatMap_drop hsorted, List.map_reverse, List.map_map]
    rfl
  have hmem (l) : l ∈ forgotten ↔ l ∈ f.assigned.above k := by
    simp only [forgotten, List.mem_reverse, List.mem_map, List.mem_filter]
    constructor
    · rintro ⟨e, ⟨he, hk⟩, rfl⟩
      exact LevelTrail.mem_above hsorted he (of_decide_eq_true hk)
    · intro hl
      obtain ⟨e, he, rfl⟩ := List.mem_map.mp hl
      refine ⟨e, ⟨List.takeWhile_subset _ he, ?_⟩, rfl⟩
      have hk : k < e.1 := by simpa using List.mem_takeWhile_imp he
      exact decide_eq_true hk
  have hclauses := (Plain.foldlM_image (g := fun l : BoundedLiteral n => l.toLiteral)
    (e := fun clauses : Vector (ShrinkingClause n) m => clauses.toArray.map (·.plain))
    (s := forgotten) (fun clauses => ∀ i, ∃ ls, (clauses.get i).restored? = some ls)
    (fun clauses l hP _ => undo?_plain (f := f) (l := l) (k := k) hP) hrestored).1
  rw [foldl_undo_congr hmem] at hclauses
  refine ⟨as.take (k + 1), ?_, htable.keepUpTo hsorted⟩
  have hassigned : (f.plain as).assigned = as := rfl
  rw [Plain.Adjacency.backtrack?, hassigned, Plain.cut?_eq, Option.bind_eq_bind, Option.bind_some]
  dsimp only
  rw [hundone]
  exact congrArg (Option.bind · _) hclauses

theorem liveClauses_plain :
    (f.plain as).liveClauses = f.liveClauses.map (List.map (·.toLiteral)) := by
  have hfilter : f.clauses.toList.filter
      ((fun c : Plain.ShrinkingClause => !c.isSatisfied && !c.live.isEmpty) ∘ (·.plain)) =
      f.clauses.toList.filter fun c => !c.isSatisfied && !c.live.isEmpty := by
    refine List.filter_congr fun c _ => ?_
    rw [Function.comp, ShrinkingClause.plain, List.isEmpty_map]
    rfl
  have hclauses : (f.plain as).clauses.toList = f.clauses.toList.map (·.plain) :=
    Array.toList_map
  rw [Plain.Adjacency.liveClauses, hclauses, List.filter_map, hfilter, List.map_map, liveClauses,
    List.map_map]
  rfl

end Adjacency

end Dpll
