import Dpll.Backtrackable
import Dpll.Journal
import Dpll.Queue
import Dpll.Watched.Clause

/-! The formula with two watched literals per clause. Making a literal true visits only the
clauses that watch it or its negation; a clause that finds nothing else to watch is queued for
unit propagation. Undoing restores the assignment and what is known to be satisfied, and
leaves the watches where they are. Every round of unit propagation either fixes an open
literal or shortens the queue, so it ends from every state. -/

namespace Dpll

/-- A formula of `m` watched clauses over `n` variables. -/
structure Watched (n m : Nat) where
  clauses : Vector (WatchedClause n) m
  /-- The clauses whose first watch is on a literal. -/
  firstWatchers : LiteralTable n (Array (Fin m))
  /-- The clauses whose second watch is on a literal. -/
  secondWatchers : LiteralTable n (Array (Fin m))
  /-- The level at which a literal was made true. -/
  levels : LiteralTable n (Option Level)
  /-- The literals made true, newest first. -/
  trail : List (BoundedLiteral n)
  /-- The clauses known to be satisfied, each with the level of the discovery, newest first. -/
  satisfied : List (Fin m × Level)
  /-- The clauses to be looked at by unit propagation. -/
  queue : Queue (Fin m)
  hasEmptyClause : Bool
  /-- Whether propagation met a falsified clause. -/
  conflict : Bool
  propagationSteps : Nat
  /-- How many times watch maintenance looked at a clause. -/
  checkedClauses : Nat
  journal : Journal (ClauseEvent (BoundedLiteral n))

namespace Watched

variable {n m : Nat}

/-- The clauses that watch a literal with the given watch. -/
def watchers (f : Watched n m) (w : Watch) (l : BoundedLiteral n) : Array (Fin m) :=
  match w with
  | .first => f.firstWatchers.get l
  | .second => f.secondWatchers.get l

/-- Applies `g` to the list of clauses that watch a literal with the given watch. -/
def modifyWatchers (f : Watched n m) (w : Watch) (l : BoundedLiteral n)
    (g : Array (Fin m) → Array (Fin m)) : Watched n m :=
  match w with
  | .first => { f with firstWatchers := f.firstWatchers.modify l g }
  | .second => { f with secondWatchers := f.secondWatchers.modify l g }

/-- Whether a literal is true. -/
def isTrue (f : Watched n m) (l : BoundedLiteral n) : Bool := (f.levels.get l).isSome

/-- Whether neither a literal nor its negation is true. -/
def isOpen (f : Watched n m) (l : BoundedLiteral n) : Bool := !f.isTrue l && !f.isTrue (-l)

/-- Whether every clause is known to be satisfied. -/
def isSatisfied (f : Watched n m) : Bool := f.satisfied.length == m

/-- Whether a clause is empty or was found falsified. -/
def isUnsatisfiable (f : Watched n m) : Bool := f.hasEmptyClause || f.conflict

/-- Notes that a clause is satisfied, once. -/
def markSatisfied (f : Watched n m) (i : Fin m) (level : Level) : Watched n m :=
  if (f.clauses.get i).knownSatisfied then f
  else
    { f with
      clauses := modifyAt f.clauses i fun c => { c with knownSatisfied := true }
      satisfied := (i, level) :: f.satisfied }

/-- Puts a clause into the queue, once. -/
def enqueue (f : Watched n m) (i : Fin m) : Watched n m :=
  if (f.clauses.get i).queued then f
  else
    { f with
      clauses := modifyAt f.clauses i fun c => { c with queued := true }
      queue := f.queue.push i }

/-- Takes a clause out of the queue that remains as `queue`. -/
def dequeue (f : Watched n m) (i : Fin m) (queue : Queue (Fin m)) : Watched n m :=
  { f with
    clauses := modifyAt f.clauses i fun c => { c with queued := false }
    queue }

/-- Empties the queue. -/
def clearQueue (f : Watched n m) : Watched n m :=
  { f with
    clauses := f.queue.toList.foldl
      (fun clauses i => modifyAt clauses i fun c => { c with queued := false }) f.clauses
    queue := .empty }

/-- Notes that watch maintenance looked at a clause. -/
def countCheck (f : Watched n m) : Watched n m :=
  { f with checkedClauses := f.checkedClauses + 1 }

/-- Adds the clause at `i` to the formula under construction: its two watches are registered,
or it is queued if it is unit. -/
def register (f : Watched n m) (i : Fin m) : Watched n m :=
  let literals := (f.clauses.get i).literals
  if h : 1 < literals.size then
    (f.modifyWatchers .first literals[0] (·.push i)).modifyWatchers .second literals[1] (·.push i)
  else if literals.size = 1 then { f with queue := f.queue.push i }
  else { f with hasEmptyClause := true }

/-- The formula of the given clauses, with nothing assigned. -/
def ofClauses (cs : List (List (BoundedLiteral n))) : Watched n cs.length :=
  (List.finRange cs.length).foldl register
    { clauses := ⟨(cs.map WatchedClause.ofLiterals).toArray, by simp⟩
      firstWatchers := .replicate n #[]
      secondWatchers := .replicate n #[]
      levels := .replicate n none
      trail := []
      satisfied := []
      queue := .empty
      hasEmptyClause := false
      conflict := false
      propagationSteps := 0
      checkedClauses := 0
      journal := .closed }

/-- Looks at a clause whose watched literal was falsified. The clause is kept in the list
`kept` of its old literal unless the watch moves. -/
def visit (w : Watch) (level : Level) :
    Array (Fin m) × Watched n m → Fin m → Array (Fin m) × Watched n m
  | (kept, f), i =>
    let f := f.countCheck
    let c := f.clauses.get i
    if c.knownSatisfied then (kept.push i, f)
    else
      match c.findReplacement f.isTrue f.isOpen w with
      | .satisfied => (kept.push i, f.markSatisfied i level)
      | .unit =>
        (kept.push i, { f with journal := f.journal.note (.becameUnit i level) }.enqueue i)
      | .move p =>
        let f := { f with clauses := modifyAt f.clauses i (·.setPosition w p) }
        (kept, f.modifyWatchers w c.literals[p] (·.push i))

/-- Tells the clauses that watch `l` or its negation with watch `w` that `l` is true. The
clauses of the falsified literal are taken out of their list while they are visited; no watch
moves to that literal. -/
def updateWatches (f : Watched n m) (w : Watch) (l : BoundedLiteral n) (level : Level) :
    Watched n m :=
  let f := (f.watchers w l).foldl (fun f i => f.countCheck.markSatisfied i level) f
  let falsified := f.watchers w (-l)
  let (kept, f) := falsified.foldl (visit w level) (#[], f.modifyWatchers w (-l) fun _ => #[])
  f.modifyWatchers w (-l) fun _ => kept

/-- Makes a literal true at a level. -/
def assign (f : Watched n m) (l : BoundedLiteral n) (level : Level) : Watched n m :=
  let f := { f with trail := l :: f.trail, levels := f.levels.set l (some level) }
  let f := f.updateWatches .first l level
  if f.isUnsatisfiable then f else f.updateWatches .second l level

/-- Looks at a clause taken from the queue: it is satisfied, falsified, has its last open
literal forced, or has several open literals. -/
def examine (f : Watched n m) (i : Fin m) (level : Level) : Watched n m :=
  let c := f.clauses.get i
  if c.knownSatisfied then f
  else if c.literals.any f.isTrue then f.markSatisfied i level
  else
    match c.literals.toList.filter f.isOpen with
    | [] => { f with conflict := true, journal := f.journal.note (.falsified i level) }
    | [l] =>
      ({ f with propagationSteps := f.propagationSteps + 1 }.assign l level).markSatisfied i level
    | _ :: _ :: _ => { f with journal := f.journal.note (.noLongerUnit i) }

/-- The number of literals that are not true. -/
def numNotTrue (f : Watched n m) : Nat := f.levels.entries.countP Option.isNone

/-! ### What propagation leaves alone -/

@[simp]
theorem levels_markSatisfied (f : Watched n m) (i : Fin m) (level : Level) :
    (f.markSatisfied i level).levels = f.levels := by
  unfold markSatisfied
  split <;> rfl

@[simp]
theorem levels_enqueue (f : Watched n m) (i : Fin m) : (f.enqueue i).levels = f.levels := by
  unfold enqueue
  split <;> rfl

@[simp]
theorem levels_modifyWatchers (f : Watched n m) (w : Watch) (l : BoundedLiteral n)
    (g : Array (Fin m) → Array (Fin m)) : (f.modifyWatchers w l g).levels = f.levels := by
  cases w <;> rfl

@[simp]
theorem queue_markSatisfied (f : Watched n m) (i : Fin m) (level : Level) :
    (f.markSatisfied i level).queue = f.queue := by
  unfold markSatisfied
  split <;> rfl

theorem levels_visit (w : Watch) (level : Level) (s : Array (Fin m) × Watched n m) (i : Fin m) :
    (visit w level s i).2.levels = s.2.levels := by
  obtain ⟨kept, f⟩ := s
  simp only [visit]
  split
  · rfl
  · split <;> simp [countCheck]

@[simp]
theorem levels_updateWatches (f : Watched n m) (w : Watch) (l : BoundedLiteral n)
    (level : Level) : (f.updateWatches w l level).levels = f.levels := by
  simp only [updateWatches, levels_modifyWatchers, ← Array.foldl_toList]
  refine List.foldlRecOn
    (motive := fun s : Array (Fin m) × Watched n m => s.2.levels = f.levels) _ _ ?_ ?_
  · simp only [levels_modifyWatchers]
    refine List.foldlRecOn (motive := fun g : Watched n m => g.levels = f.levels) _ _ rfl ?_
    intro g hg i _
    simpa [countCheck] using hg
  · intro s hs i _
    rw [levels_visit, hs]

@[simp]
theorem levels_assign (f : Watched n m) (l : BoundedLiteral n) (level : Level) :
    (f.assign l level).levels = f.levels.set l (some level) := by
  simp only [assign]
  split <;> simp

theorem numNotTrue_assign_lt {f : Watched n m} {l : BoundedLiteral n} (h : f.isTrue l = false)
    (level : Level) : (f.assign l level).numNotTrue < f.numNotTrue := by
  have hl : f.levels.entries[l.slot] = none := by simpa [isTrue, LiteralTable.get] using h
  have hpos : 0 < f.numNotTrue :=
    Vector.countP_pos_iff.mpr ⟨_, Vector.getElem_mem l.slot.isLt, by simpa using hl⟩
  have hset : (f.levels.entries.set l.slot (some level)).countP Option.isNone = _ :=
    Vector.countP_set l.slot.isLt
  have hslot : f.levels.entries[l.slot.val].isNone = true := by
    rw [show f.levels.entries[l.slot.val] = none from hl, Option.isNone_none]
  rw [if_pos hslot, if_neg (by simp)] at hset
  simp only [numNotTrue, levels_assign, LiteralTable.set] at hpos ⊢
  omega

theorem numNotTrue_markSatisfied (f : Watched n m) (i : Fin m) (level : Level) :
    (f.markSatisfied i level).numNotTrue = f.numNotTrue := by
  rw [numNotTrue, levels_markSatisfied, numNotTrue]

/-- Looking at a clause either fixes a literal that was not true or leaves the queue and the
true literals as they are. -/
theorem examine_progress (f : Watched n m) (i : Fin m) (level : Level) :
    (f.examine i level).numNotTrue < f.numNotTrue ∨
      (f.examine i level).numNotTrue = f.numNotTrue ∧ (f.examine i level).queue = f.queue := by
  generalize hr : f.examine i level = r
  simp only [examine] at hr
  split at hr
  · exact .inr ⟨by rw [← hr], by rw [← hr]⟩
  · split at hr
    · exact .inr ⟨by simp [← hr, numNotTrue], by simp [← hr]⟩
    · split at hr
      · exact .inr ⟨by rw [← hr, numNotTrue, numNotTrue], by rw [← hr]⟩
      · rename_i l hl
        have hopen : f.isOpen l = true :=
          (List.mem_filter.mp (hl ▸ List.mem_singleton_self l)).2
        have hfalse : f.isTrue l = false := by
          simp only [isOpen, Bool.and_eq_true, Bool.not_eq_true'] at hopen
          exact hopen.1
        have hlt := numNotTrue_assign_lt
          (f := { f with propagationSteps := f.propagationSteps + 1 }) (l := l) hfalse level
        exact .inl (by rw [← hr, numNotTrue_markSatisfied]; exact hlt)
      · exact .inr ⟨by rw [← hr, numNotTrue, numNotTrue], by rw [← hr]⟩

/-! ### Propagation and undoing -/

/-- Takes clauses from the queue and looks at them until the queue is empty or a clause is
falsified; in the latter case the queue is emptied. -/
def unitPropagate (f : Watched n m) (level : Level) : Watched n m :=
  if f.isUnsatisfiable then f.clearQueue
  else
    match _h : f.queue.pop? with
    | none => f
    | some (i, queue) => ((f.dequeue i queue).examine i level).unitPropagate level
termination_by (f.numNotTrue, f.queue.toList.length)
decreasing_by
  have hlength : f.queue.toList.length = queue.toList.length + 1 := by
    rw [Queue.toList_of_pop? _h, List.length_cons]
  have hsame : (f.dequeue i queue).numNotTrue = f.numNotTrue := rfl
  have hqueue : (f.dequeue i queue).queue = queue := rfl
  rcases examine_progress (f.dequeue i queue) i level with h | ⟨h, hq⟩
  · exact Prod.Lex.left _ _ (by omega)
  · rw [h, hsame, hq, hqueue]
    exact Prod.Lex.right _ (by omega)

/-- Forgets the newest literals as long as they are not true at `level` or below. -/
def undoTrail (level : Level) :
    List (BoundedLiteral n) → LiteralTable n (Option Level) →
      List (BoundedLiteral n) × LiteralTable n (Option Level)
  | [], levels => ([], levels)
  | l :: trail, levels =>
    if (levels.get l).any (· ≤ level) then (l :: trail, levels)
    else undoTrail level trail (levels.set l none)

/-- Forgets the newest discoveries of satisfied clauses as long as they lie above `level`. -/
def undoSatisfied (level : Level) : List (Fin m × Level) → Watched n m → Watched n m
  | [], f => { f with satisfied := [] }
  | (i, foundAt) :: log, f =>
    let f := f.countCheck
    if foundAt ≤ level then { f with satisfied := (i, foundAt) :: log }
    else
      undoSatisfied level log
        { f with clauses := modifyAt f.clauses i fun c => { c with knownSatisfied := false } }

/-- Undoes what was assigned and discovered above `level`; the watches stay. -/
def backtrack (f : Watched n m) (level : Level) : Watched n m :=
  let (trail, levels) := undoTrail level f.trail f.levels
  let f := undoSatisfied level f.satisfied { f with trail, levels }
  { f with conflict := false }

/-- The literals made true, in order. -/
def assignment (f : Watched n m) : List (BoundedLiteral n) := f.trail.reverse

/-- The open literals of every clause not known to be satisfied. -/
def liveClauses (f : Watched n m) : List (List (BoundedLiteral n)) :=
  (f.clauses.toList.filter fun c => !c.knownSatisfied).map fun c =>
    c.literals.toList.filter f.isOpen

/-- The number of distinct literals of all clauses together. -/
def numLiterals (f : Watched n m) : Nat :=
  f.clauses.toList.foldl (fun total c => total + c.literals.size) 0

instance : Backtrackable (Watched n m) (BoundedLiteral n) where
  assign := assign
  unitPropagate := unitPropagate
  backtrack := backtrack
  isSatisfied := isSatisfied
  isUnsatisfiable := isUnsatisfiable
  propagationSteps := propagationSteps
  assignment := assignment
  liveClauses := liveClauses

end Watched

end Dpll
