import Dpll.Cnf
import Dpll.Proofs.Plain.Table
import Dpll.Proofs.Rounds

/-! The formula with two watched literals per clause, with its tables addressed by plain numbers. -/

namespace Dpll.Plain

/-- A clause with two watched positions and plain literals. -/
structure WatchedClause where
  literals : Array Literal
  firstPosition : Nat
  secondPosition : Nat
  knownSatisfied : Bool
  queued : Bool

/-- What a falsified watch does next. -/
inductive Replacement where
  /-- A true literal was met. -/
  | satisfied
  /-- The watch moves. -/
  | move (position : Nat)
  /-- Nothing is left to watch. -/
  | unit

namespace WatchedClause

/-- The clause of the given literals, a repeated literal kept once. -/
def ofLiterals (ls : List Literal) : WatchedClause :=
  let literals := ls.eraseDups.toArray
  { literals
    firstPosition := 0
    secondPosition := if literals.size < 2 then 0 else 1
    knownSatisfied := false
    queued := literals.size = 1 }

/-- The position of a watch. -/
def position (c : WatchedClause) : Watch → Nat
  | .first => c.firstPosition
  | .second => c.secondPosition

/-- Moves a watch. -/
def setPosition (c : WatchedClause) (w : Watch) (p : Nat) : WatchedClause :=
  match w with
  | .first => { c with firstPosition := p }
  | .second => { c with secondPosition := p }

/-- The positions after a watch up to the end of the clause, then those from the start up to the
watch, which need not be positions of the clause if the watch is not. -/
def positionsFrom (c : WatchedClause) (w : Watch) : List Nat :=
  List.range' (c.position w + 1) (c.literals.size - (c.position w + 1)) ++
    List.range (c.position w + 1)

/-- Looks for a true literal, or an open one that the other watch leaves free, at the given
positions. -/
def search? (c : WatchedClause) (isTrue? isOpen? : Literal → Option Bool) (w : Watch) :
    List Nat → Option Replacement
  | [] => some .unit
  | p :: ps => do
    let l ← c.literals[p]?
    if ← isTrue? l then some .satisfied
    else if ← if p = c.position w.other then some false else isOpen? l then some (.move p)
    else search? c isTrue? isOpen? w ps

/-- Looks for a replacement once around the clause. -/
def findReplacement? (c : WatchedClause) (isTrue? isOpen? : Literal → Option Bool) (w : Watch) :
    Option Replacement :=
  c.search? isTrue? isOpen? w (c.positionsFrom w)

end WatchedClause

/-- The formula of watched clauses. Clauses and levels are numbers, and a table of literals is
addressed by their codes. -/
structure Watched where
  clauses : Array WatchedClause
  /-- The clauses whose first watch is on a literal. -/
  firstWatchers : Array (Array Nat)
  /-- The clauses whose second watch is on a literal. -/
  secondWatchers : Array (Array Nat)
  /-- The level at which a literal was made true. -/
  levels : Array (Option Level)
  trail : List Literal
  satisfied : List (Nat × Level)
  queue : List Nat
  hasEmptyClause : Bool
  conflict : Bool
  propagationSteps : Nat
  checkedClauses : Nat

namespace Watched

/-- The clauses that watch with the given watch, by literals. -/
def watchers (f : Watched) : Watch → Array (Array Nat)
  | .first => f.firstWatchers
  | .second => f.secondWatchers

/-- Applies `g` to the list of clauses that watch a literal with the given watch. -/
def modifyWatchers? (f : Watched) (w : Watch) (l : Literal) (g : Array Nat → Array Nat) :
    Option Watched := do
  let table ← update? (f.watchers w) l.code.toNat fun is => some (g is)
  match w with
  | .first => return { f with firstWatchers := table }
  | .second => return { f with secondWatchers := table }

/-- Whether a literal is true. -/
def isTrue? (f : Watched) (l : Literal) : Option Bool := f.levels[l.code.toNat]?.map Option.isSome

/-- Whether neither a literal nor its negation is true. -/
def isOpen? (f : Watched) (l : Literal) : Option Bool := do
  if ← f.isTrue? l then some false
  else (f.isTrue? (-l)).map (!·)

/-- Whether a clause is empty or was found falsified. -/
def isUnsatisfiable (f : Watched) : Bool := f.hasEmptyClause || f.conflict

/-- Notes that watch maintenance looked at a clause. -/
def countCheck (f : Watched) : Watched := { f with checkedClauses := f.checkedClauses + 1 }

/-- Notes that a clause is satisfied, once. -/
def markSatisfied? (f : Watched) (i : Nat) (level : Level) : Option Watched := do
  let c ← f.clauses[i]?
  if c.knownSatisfied then some f
  else do
    let clauses ← update? f.clauses i fun c => some { c with knownSatisfied := true }
    return { f with clauses, satisfied := (i, level) :: f.satisfied }

/-- Puts a clause into the queue, once. -/
def enqueue? (f : Watched) (i : Nat) : Option Watched := do
  let c ← f.clauses[i]?
  if c.queued then some f
  else do
    let clauses ← update? f.clauses i fun c => some { c with queued := true }
    return { f with clauses, queue := f.queue ++ [i] }

/-- Takes a clause out of the queue that remains as `queue`. -/
def dequeue? (f : Watched) (i : Nat) (queue : List Nat) : Option Watched := do
  let clauses ← update? f.clauses i fun c => some { c with queued := false }
  return { f with clauses, queue }

/-- Empties the queue. -/
def clearQueue? (f : Watched) : Option Watched := do
  let clauses ← f.queue.foldlM
    (fun clauses i => update? clauses i fun c => some { c with queued := false }) f.clauses
  return { f with clauses, queue := [] }

/-- Adds the clause at `i` to the formula under construction. -/
def register? (f : Watched) (i : Nat) : Option Watched := do
  let c ← f.clauses[i]?
  match c.literals.size with
  | 0 => return { f with hasEmptyClause := true }
  | 1 => return { f with queue := f.queue ++ [i] }
  | _ => do
    let first ← c.literals[0]?
    let f ← f.modifyWatchers? .first first (·.push i)
    let second ← c.literals[1]?
    f.modifyWatchers? .second second (·.push i)

/-- The formula of the given clauses over `numVars` variables. -/
def ofClauses? (numVars : Nat) (cs : List Clause) : Option Watched :=
  (List.range cs.length).foldlM register? {
    clauses := (cs.map WatchedClause.ofLiterals).toArray
    firstWatchers := .replicate (2 * numVars) #[]
    secondWatchers := .replicate (2 * numVars) #[]
    levels := .replicate (2 * numVars) none
    trail := []
    satisfied := []
    queue := []
    hasEmptyClause := false
    conflict := false
    propagationSteps := 0
    checkedClauses := 0 }

/-- Looks at a clause whose watched literal was falsified. -/
def visit? (w : Watch) (level : Level) : Array Nat × Watched → Nat → Option (Array Nat × Watched)
  | (kept, f), i => do
    let f := f.countCheck
    let c ← f.clauses[i]?
    if c.knownSatisfied then some (kept.push i, f)
    else do
      match ← c.findReplacement? f.isTrue? f.isOpen? w with
      | .satisfied =>
        let f ← f.markSatisfied? i level
        return (kept.push i, f)
      | .unit =>
        let f ← f.enqueue? i
        return (kept.push i, f)
      | .move p =>
        let clauses ← update? f.clauses i fun c => some (c.setPosition w p)
        let l ← c.literals[p]?
        let f ← { f with clauses }.modifyWatchers? w l (·.push i)
        return (kept, f)

/-- Tells the clauses that watch `l` or its negation with watch `w` that `l` is true. -/
def updateWatches? (f : Watched) (w : Watch) (l : Literal) (level : Level) : Option Watched := do
  let satisfied ← (f.watchers w)[l.code.toNat]?
  let f ← satisfied.toList.foldlM (fun f i => f.countCheck.markSatisfied? i level) f
  let falsified ← (f.watchers w)[(-l).code.toNat]?
  let f ← f.modifyWatchers? w (-l) fun _ => #[]
  let (kept, f) ← falsified.toList.foldlM (visit? w level) (#[], f)
  f.modifyWatchers? w (-l) fun _ => kept

/-- Makes a literal true at a level. -/
def assign? (f : Watched) (l : Literal) (level : Level) : Option Watched := do
  let levels ← update? f.levels l.code.toNat fun _ => some (some level)
  let f ← { f with trail := l :: f.trail, levels }.updateWatches? .first l level
  if f.isUnsatisfiable then some f else f.updateWatches? .second l level

/-- Looks at a clause taken from the queue. -/
def examine? (f : Watched) (i : Nat) (level : Level) : Option Watched := do
  let c ← f.clauses[i]?
  if c.knownSatisfied then some f
  else if ← c.literals.toList.anyM f.isTrue? then f.markSatisfied? i level
  else
    match ← filter? f.isOpen? c.literals.toList with
    | [] => return { f with conflict := true }
    | [l] => do
      let f ← { f with propagationSteps := f.propagationSteps + 1 }.assign? l level
      f.markSatisfied? i level
    | _ :: _ :: _ => return f

/-- Takes clauses from the queue and looks at them until the queue is empty or a clause is falsified,
if that takes fewer than the given number of rounds. -/
def propagateFor? (level : Level) : (rounds : Nat) → Watched → Option Watched
  | 0, _ => none
  | rounds + 1, f =>
    if f.isUnsatisfiable then f.clearQueue?
    else
      match f.queue with
      | [] => some f
      | i :: queue => do
        let f ← f.dequeue? i queue
        let f ← f.examine? i level
        propagateFor? level rounds f

/-- Takes clauses from the queue and looks at them until the queue is empty or a clause is falsified.
The rounds suffice (`Orderly.unitPropagate?_plain`). -/
def unitPropagate? (f : Watched) (level : Level) : Option Watched :=
  propagateFor? level ((f.levels.size + 1) * (f.clauses.size + 1)) f

/-- Forgets the newest literals as long as they are not true at `level` or below. -/
def undoTrail? (level : Level) :
    List Literal → Array (Option Level) → Option (List Literal × Array (Option Level))
  | [], levels => some ([], levels)
  | l :: trail, levels => do
    let madeTrue ← levels[l.code.toNat]?
    if madeTrue.any (· ≤ level) then some (l :: trail, levels)
    else do
      let levels ← update? levels l.code.toNat fun _ => some none
      undoTrail? level trail levels

/-- Forgets the newest discoveries of satisfied clauses as long as they lie above `level`. -/
def undoSatisfied? (level : Level) : List (Nat × Level) → Watched → Option Watched
  | [], f => some { f with satisfied := [] }
  | (i, foundAt) :: log, f =>
    let f := f.countCheck
    if foundAt ≤ level then some { f with satisfied := (i, foundAt) :: log }
    else do
      let clauses ← update? f.clauses i fun c => some { c with knownSatisfied := false }
      undoSatisfied? level log { f with clauses }

/-- Undoes what was assigned and discovered above `level`. -/
def backtrack? (f : Watched) (level : Level) : Option Watched := do
  let (trail, levels) ← undoTrail? level f.trail f.levels
  let f ← undoSatisfied? level f.satisfied { f with trail, levels }
  return { f with conflict := false }

/-- The literals made true, in order. -/
def assignment (f : Watched) : List Literal := f.trail.reverse

/-- The open literals of every clause not known to be satisfied. -/
def liveClauses? (f : Watched) : Option (List (List Literal)) :=
  (f.clauses.toList.filter fun c => !c.knownSatisfied).mapM fun c =>
    filter? f.isOpen? c.literals.toList

end Watched

end Dpll.Plain

namespace Dpll

variable {n m : Nat}

/-! ### Clauses -/

/-- A replacement whose position is a number. -/
def Replacement.plain {k : Nat} : Replacement k → Plain.Replacement
  | satisfied => .satisfied
  | move p => .move p.val
  | unit => .unit

namespace WatchedClause

variable {c : WatchedClause n} {w : Watch} {p : Nat} {ls : List (BoundedLiteral n)}

/-- The clause with plain literals. -/
def plain (c : WatchedClause n) : Plain.WatchedClause :=
  ⟨c.literals.map (·.toLiteral), c.firstPosition, c.secondPosition, c.knownSatisfied, c.queued⟩

theorem plain_ofLiterals : (ofLiterals ls).plain = .ofLiterals (ls.map (·.toLiteral)) := by
  have hliterals : (ls.eraseDups.toArray.map (·.toLiteral)) =
      (ls.map (·.toLiteral)).eraseDups.toArray := by
    rw [eraseDups_map BoundedLiteral.toLiteral_injective, List.map_toArray]
  rw [plain, ofLiterals, Plain.WatchedClause.ofLiterals, ← hliterals, Array.size_map]

theorem position_plain : c.plain.position w = c.position w := by cases w <;> rfl

theorem plain_setPosition : (c.setPosition w p).plain = c.plain.setPosition w p := by
  cases w <;> rfl

theorem getElem?_literals_plain (p : Fin c.literals.size) :
    c.plain.literals[p.val]? = some (c.literals.toList.get p).toLiteral := by
  rw [plain, Array.getElem?_map, Array.getElem?_eq_getElem p.isLt]
  rfl

/-- From a position of the clause, the search stays inside the clause. -/
theorem positionsFrom_plain (h : c.position w < c.literals.size) :
    c.plain.positionsFrom w = (cyclicFrom c.literals.size (c.position w)).map Fin.val := by
  have hsize : c.plain.literals.size = c.literals.size := Array.size_map
  rw [Plain.WatchedClause.positionsFrom, position_plain, hsize, cyclicFrom, List.map_append,
    List.map_drop, List.map_take, List.map_coe_finRange_eq_range, List.take_range,
    Nat.min_eq_left h]
  simp only [List.range_eq_range', List.drop_range', Nat.zero_add, Nat.mul_one]

variable {isTrue? isOpen? : Literal → Option Bool} {isTrue isOpen : BoundedLiteral n → Bool}
  (htrue : ∀ l, isTrue? l.toLiteral = some (isTrue l))
  (hopen : ∀ l, isOpen? l.toLiteral = some (isOpen l))
include htrue hopen

theorem search?_plain (ps : List (Fin c.literals.size)) :
    c.plain.search? isTrue? isOpen? w (ps.map Fin.val) =
      some (Replacement.plain (k := c.literals.size) ((ps.findSome? fun p =>
        c.consider isTrue isOpen w (c.literals.toList.get p) p).getD .unit)) := by
  induction ps with
  | nil => rfl
  | cons p ps ih =>
    rw [List.map_cons, Plain.WatchedClause.search?, getElem?_literals_plain, List.findSome?_cons,
      consider]
    generalize c.literals.toList.get p = l
    simp only [Option.bind_eq_bind, Option.bind_some, htrue, position_plain]
    cases isTrue l with
    | true => rfl
    | false =>
      by_cases hp : p.val = c.position w.other
      · simpa [hp] using ih
      · cases ho : isOpen l with
        | true => simp [hp, hopen, ho, Replacement.plain]
        | false => simpa [hp, hopen, ho] using ih

theorem findReplacement?_plain (h : c.position w < c.literals.size) :
    c.plain.findReplacement? isTrue? isOpen? w = some (c.findReplacement isTrue isOpen w).plain := by
  rw [Plain.WatchedClause.findReplacement?, positionsFrom_plain h, search?_plain htrue hopen,
    findReplacement_eq]

end WatchedClause

/-! ### The formula -/

namespace Watched

variable {f g : Watched n m} {w : Watch} {l : BoundedLiteral n} {i : Fin m} {k : Level}
  {q : Queue (Fin m)}

/-- The formula with its tables addressed by numbers. -/
def plain (f : Watched n m) : Plain.Watched where
  clauses := f.clauses.toArray.map (·.plain)
  firstWatchers := f.firstWatchers.entries.toArray.map (·.map Fin.val)
  secondWatchers := f.secondWatchers.entries.toArray.map (·.map Fin.val)
  levels := f.levels.entries.toArray
  trail := f.trail.map (·.toLiteral)
  satisfied := f.satisfied.map fun e => (e.1.val, e.2)
  queue := f.queue.toList.map Fin.val
  hasEmptyClause := f.hasEmptyClause
  conflict := f.conflict
  propagationSteps := f.propagationSteps
  checkedClauses := f.checkedClauses

theorem getElem?_clauses_plain : f.plain.clauses[i.val]? = some (f.clauses.get i).plain :=
  Plain.getElem?_image f.clauses (·.plain) i

theorem update?_clauses_plain {r? : Plain.WatchedClause → Option Plain.WatchedClause}
    {r : WatchedClause n → WatchedClause n}
    (h : r? (f.clauses.get i).plain = some (r (f.clauses.get i)).plain) :
    Plain.update? f.plain.clauses i.val r? =
      some ((modifyAt f.clauses i r).toArray.map (·.plain)) :=
  Plain.update?_image f.clauses i h

theorem getElem?_watchers_plain : (f.plain.watchers w)[l.toLiteral.code.toNat]? =
    some ((f.watchers w l).map Fin.val) := by
  cases w with
  | first => exact Plain.getElem?_table f.firstWatchers (·.map Fin.val) l
  | second => exact Plain.getElem?_table f.secondWatchers (·.map Fin.val) l

theorem modifyWatchers?_plain {r' : Array Nat → Array Nat} {r : Array (Fin m) → Array (Fin m)}
    (h : ∀ is, r' (is.map Fin.val) = (r is).map Fin.val) :
    f.plain.modifyWatchers? w l.toLiteral r' = some (f.modifyWatchers w l r).plain := by
  cases w with
  | first =>
    have hupdate : Plain.update? (f.plain.watchers .first) l.toLiteral.code.toNat
        (fun is => some (r' is)) =
        some ((f.firstWatchers.modify l r).entries.toArray.map (·.map Fin.val)) :=
      Plain.update?_table f.firstWatchers l (congrArg some (h _))
    rw [Plain.Watched.modifyWatchers?, hupdate]
    rfl
  | second =>
    have hupdate : Plain.update? (f.plain.watchers .second) l.toLiteral.code.toNat
        (fun is => some (r' is)) =
        some ((f.secondWatchers.modify l r).entries.toArray.map (·.map Fin.val)) :=
      Plain.update?_table f.secondWatchers l (congrArg some (h _))
    rw [Plain.Watched.modifyWatchers?, hupdate]
    rfl

theorem modifyWatchers?_push_plain : f.plain.modifyWatchers? w l.toLiteral (·.push i.val) =
    some (f.modifyWatchers w l (·.push i)).plain := modifyWatchers?_plain fun _ => Array.map_push.symm

theorem isTrue?_plain (l : BoundedLiteral n) : f.plain.isTrue? l.toLiteral = some (f.isTrue l) := by
  rw [Plain.Watched.isTrue?, plain, Plain.getElem?_entries]
  rfl

theorem isOpen?_plain (l : BoundedLiteral n) : f.plain.isOpen? l.toLiteral = some (f.isOpen l) := by
  have hneg : f.plain.isTrue? (-l.toLiteral) = some (f.isTrue (-l)) := isTrue?_plain (-l)
  rw [Plain.Watched.isOpen?, isTrue?_plain, hneg, isOpen]
  cases f.isTrue l <;> rfl

theorem markSatisfied?_plain : f.plain.markSatisfied? i.val k = some (f.markSatisfied i k).plain := by
  rw [Plain.Watched.markSatisfied?, getElem?_clauses_plain, Option.bind_eq_bind, Option.bind_some,
    markSatisfied]
  have hknown : (f.clauses.get i).plain.knownSatisfied = (f.clauses.get i).knownSatisfied := rfl
  rw [hknown]
  split
  · rfl
  · rw [update?_clauses_plain (r := fun c => { c with knownSatisfied := true }) rfl]
    rfl

theorem enqueue?_plain : f.plain.enqueue? i.val = some (f.enqueue i).plain := by
  rw [Plain.Watched.enqueue?, getElem?_clauses_plain, Option.bind_eq_bind, Option.bind_some, enqueue]
  have hqueued : (f.clauses.get i).plain.queued = (f.clauses.get i).queued := rfl
  rw [hqueued]
  split
  · rfl
  · rw [update?_clauses_plain (r := fun c => { c with queued := true }) rfl]
    simp [plain]

theorem dequeue?_plain : f.plain.dequeue? i.val (q.toList.map Fin.val) = some (f.dequeue i q).plain := by
  rw [Plain.Watched.dequeue?, update?_clauses_plain (r := fun c => { c with queued := false }) rfl]
  rfl

theorem clearQueue?_plain : f.plain.clearQueue? = some f.clearQueue.plain := by
  have hloop := (Plain.foldlM_image (g := Fin.val) (s := f.queue.toList)
    (e := fun clauses : Vector (WatchedClause n) m => clauses.toArray.map (·.plain))
    (r := fun clauses i => Plain.update? clauses i fun c => some { c with queued := false })
    (f := fun clauses i => modifyAt clauses i fun c => { c with queued := false })
    (fun _ => True) (fun clauses i _ _ => ⟨Plain.update?_image clauses i rfl, trivial⟩)
    (a := f.clauses) trivial).1
  exact congrArg (Option.bind · _) hloop

/-- A clause of two literals has a literal at each of the positions that are watched first. -/
theorem register?_plain : f.plain.register? i.val = some (f.register i).plain := by
  have hsize : (f.clauses.get i).plain.literals.size = (f.clauses.get i).literals.size :=
    Array.size_map
  rw [Plain.Watched.register?, getElem?_clauses_plain, Option.bind_eq_bind, Option.bind_some, hsize,
    register]
  split
  · next hempty =>
    rw [dif_neg (by lia), if_neg (by lia)]
    rfl
  · next hunit =>
    rw [dif_neg (by lia), if_pos hunit]
    simp [plain]
  · next hempty hunit =>
    have hlen : 1 < (f.clauses.get i).literals.size := by lia
    have hfirst : (f.clauses.get i).plain.literals[0]? =
        some (f.clauses.get i).literals[0].toLiteral :=
      WatchedClause.getElem?_literals_plain ⟨0, Nat.lt_of_succ_lt hlen⟩
    have hsecond : (f.clauses.get i).plain.literals[1]? =
        some (f.clauses.get i).literals[1].toLiteral :=
      WatchedClause.getElem?_literals_plain ⟨1, hlen⟩
    rw [dif_pos hlen, hfirst, hsecond]
    simp only [Option.bind_eq_bind, Option.bind_some, modifyWatchers?_push_plain]

theorem ofClauses?_plain (cs : List (List (BoundedLiteral n))) :
    Plain.Watched.ofClauses? n (cs.map (List.map (·.toLiteral))) = some (ofClauses cs).plain := by
  have hclauses : ((cs.map (List.map (·.toLiteral))).map Plain.WatchedClause.ofLiterals).toArray =
      (cs.map WatchedClause.ofLiterals).toArray.map (·.plain) := by
    rw [List.map_toArray, List.map_map, List.map_map]
    congr 2
    exact funext fun ls => WatchedClause.plain_ofLiterals.symm
  have hblank : (blank cs).plain = {
      clauses := ((cs.map (List.map (·.toLiteral))).map Plain.WatchedClause.ofLiterals).toArray
      firstWatchers := .replicate (2 * n) #[]
      secondWatchers := .replicate (2 * n) #[]
      levels := .replicate (2 * n) none
      trail := []
      satisfied := []
      queue := []
      hasEmptyClause := false
      conflict := false
      propagationSteps := 0
      checkedClauses := 0 } := by
    rw [hclauses]
    simp [plain, blank, LiteralTable.replicate]
  rw [Plain.Watched.ofClauses?, List.length_map, ← List.map_coe_finRange_eq_range, ← hblank]
  exact (Plain.foldlM_image (fun _ => True) (fun f i _ _ => ⟨register?_plain, trivial⟩) trivial).1

/-! ### Watch maintenance -/

/-- A visit keeps the watches inside the clauses. -/
theorem position_visit_lt {kept : Array (Fin m)} {j : Fin m}
    (h : (f.clauses.get j).position w < (f.clauses.get j).literals.size) :
    ((visit w k (kept, f) i).2.clauses.get j).position w <
      ((visit w k (kept, f) i).2.clauses.get j).literals.size := by
  unfold visit
  dsimp only
  split
  · exact h
  · split
    · rw [get_clauses_markSatisfied]
      split
      · cases w <;> exact h
      · exact h
    · rw [get_clauses_enqueue]
      split
      · cases w <;> exact h
      · exact h
    · next p _ =>
      rw [clauses_modifyWatchers, get_modifyAt]
      split
      · next hij =>
        subst hij
        cases w <;> exact p.isLt
      · exact h

/-- No look-up fails when a clause is visited whose watch is inside it. -/
theorem visit?_plain {kept : Array (Fin m)}
    (h : (f.clauses.get i).position w < (f.clauses.get i).literals.size) :
    Plain.Watched.visit? w k (kept.map Fin.val, f.plain) i.val =
      some ((visit w k (kept, f) i).1.map Fin.val, (visit w k (kept, f) i).2.plain) := by
  have hcount : f.plain.countCheck = f.countCheck.plain := rfl
  have hlt : (f.countCheck.clauses.get i).position w <
      (f.countCheck.clauses.get i).literals.size := h
  have hpush : (kept.map Fin.val).push i.val = (kept.push i).map Fin.val := Array.map_push.symm
  rw [Plain.Watched.visit?, hcount]
  unfold visit
  dsimp only
  have hknown : (f.countCheck.clauses.get i).plain.knownSatisfied =
      (f.countCheck.clauses.get i).knownSatisfied := rfl
  rw [getElem?_clauses_plain, Option.bind_eq_bind, Option.bind_some, hknown]
  split
  · rw [hpush]
  · rw [WatchedClause.findReplacement?_plain isTrue?_plain isOpen?_plain hlt, Option.bind_eq_bind,
      Option.bind_some]
    cases (f.countCheck.clauses.get i).findReplacement f.countCheck.isTrue f.countCheck.isOpen w with
    | satisfied =>
      dsimp only [Replacement.plain]
      rw [markSatisfied?_plain, hpush]
      rfl
    | unit =>
      dsimp only [Replacement.plain]
      have henqueue := enqueue?_plain (i := i)
        (f := { f.countCheck with journal := f.countCheck.journal.note (.becameUnit i k) })
      rw [← hpush]
      exact congrArg (Option.bind · _) henqueue
    | move p =>
      dsimp only [Replacement.plain]
      have hset : Plain.update? f.countCheck.plain.clauses i.val (fun c => some (c.setPosition w p)) =
          some ((modifyAt f.clauses i (·.setPosition w p)).toArray.map (·.plain)) :=
        update?_clauses_plain (f := f.countCheck) (congrArg some WatchedClause.plain_setPosition.symm)
      have hmoved := modifyWatchers?_push_plain (w := w) (i := i)
        (l := (f.clauses.get i).literals.toList.get p)
        (f := { f.countCheck with clauses := modifyAt f.clauses i (·.setPosition w p) })
      rw [hset, Option.bind_eq_bind, Option.bind_some, WatchedClause.getElem?_literals_plain,
        Option.bind_eq_bind, Option.bind_some]
      exact congrArg (Option.bind · _) hmoved

section

variable {s : List (Fin m)}

theorem foldlM_markSatisfied?_plain :
    (s.map Fin.val).foldlM (fun f i => f.countCheck.markSatisfied? i k) f.plain =
      some (s.foldl (fun f i => f.countCheck.markSatisfied i k) f).plain :=
  (Plain.foldlM_image (fun _ => True)
    (fun f _ _ _ => ⟨markSatisfied?_plain (f := f.countCheck), trivial⟩) trivial).1

theorem Placed.foldl_markSatisfied (hp : Placed f) :
    Placed (s.foldl (fun f i => f.countCheck.markSatisfied i k) f) :=
  List.foldlRecOn (motive := Placed) _ _ hp fun _ hg _ _ => hg.countCheck.markSatisfied

theorem foldlM_visit?_plain
    (h : ∀ i ∈ s, (f.clauses.get i).position w < (f.clauses.get i).literals.size) :
    (s.map Fin.val).foldlM (Plain.Watched.visit? w k) (#[], f.plain) =
      some ((s.foldl (visit w k) (#[], f)).1.map Fin.val, (s.foldl (visit w k) (#[], f)).2.plain) := by
  have hloop := (Plain.foldlM_image
    (e := fun s : Array (Fin m) × Watched n m => (s.1.map Fin.val, s.2.plain))
    (r := Plain.Watched.visit? w k) (f := visit w k)
    (fun t => ∀ i ∈ s, (t.2.clauses.get i).position w < (t.2.clauses.get i).literals.size)
    (fun _ i ht hi => ⟨visit?_plain (ht i hi), fun j hj => position_visit_lt (ht j hj)⟩)
    (a := (#[], f)) h).1
  rwa [Array.map_empty] at hloop

end

/-- A clause in a list of watchers has its watch inside it. -/
theorem Placed.position_lt (hp : Placed f) (hi : i ∈ (f.watchers w l).toList) :
    (f.clauses.get i).position w < (f.clauses.get i).literals.size :=
  hp.lt i w ((hp.mem_watchers w l i).mp hi).1

theorem updateWatches?_plain (hp : Placed f) :
    f.plain.updateWatches? w l.toLiteral k = some (f.updateWatches w l k).plain := by
  have hplaced := hp.foldl_markSatisfied (s := (f.watchers w l).toList) (k := k)
  rw [Plain.Watched.updateWatches?, getElem?_watchers_plain, Option.bind_eq_bind, Option.bind_some,
    Array.toList_map, foldlM_markSatisfied?_plain, Option.bind_eq_bind, Option.bind_some, updateWatches]
  simp only [← Array.foldl_toList]
  generalize (f.watchers w l).toList.foldl _ f = f at hplaced ⊢
  have hneg : (f.plain.watchers w)[(-l.toLiteral).code.toNat]? =
      some ((f.watchers w (-l)).map Fin.val) := getElem?_watchers_plain (l := -l)
  have htaken : f.plain.modifyWatchers? w (-l.toLiteral) (fun _ => #[]) =
      some (f.modifyWatchers w (-l) fun _ => #[]).plain :=
    modifyWatchers?_plain (l := -l) fun _ => Array.map_empty.symm
  have hinside (i) (hi : i ∈ (f.watchers w (-l)).toList) :
      ((f.modifyWatchers w (-l) fun _ => #[]).clauses.get i).position w <
        ((f.modifyWatchers w (-l) fun _ => #[]).clauses.get i).literals.size := by
    rw [clauses_modifyWatchers]
    exact hplaced.position_lt hi
  have hvisits := foldlM_visit?_plain (k := k) hinside
  simp only [hneg, htaken, Option.bind_eq_bind, Option.bind_some, Array.toList_map, hvisits]
  exact modifyWatchers?_plain (l := -l) fun _ => rfl

theorem isUnsatisfiable_plain : f.plain.isUnsatisfiable = f.isUnsatisfiable := rfl

/-- No look-up fails when a literal is made true. -/
theorem assign?_plain (hp : Placed f) (hl : Logged f) :
    f.plain.assign? l.toLiteral k = some (f.assign l k).plain := by
  have hlevels : Plain.update? f.plain.levels l.toLiteral.code.toNat (fun _ => some (some k)) =
      some (f.fix l k).plain.levels := Plain.update?_set f.levels l (some k)
  have htrue : (f.fix l k).isTrue l = true := isTrue_fix.mpr (.inl rfl)
  have hfirst := updateWatches?_plain (w := .first) (l := l) (k := k) (hp.fix (l := l) (k := k))
  have hplaced := (updateWatches_spec (w := .first) (k := k) hp.fix hl.fix htrue).placed
  rw [Plain.Watched.assign?, hlevels, Option.bind_eq_bind, Option.bind_some, assign_eq]
  generalize (f.fix l k).updateWatches .first l k = g at hfirst hplaced ⊢
  calc
    _ = (some g.plain).bind _ := congrArg (Option.bind · _) hfirst
    _ = _ := by
      rw [Option.bind_some, isUnsatisfiable_plain]
      split
      · rfl
      · exact updateWatches?_plain hplaced

/-! ### Propagation and undoing -/

/-- No look-up fails when a clause is looked at. -/
theorem examine?_plain (hp : Placed f) (hl : Logged f) :
    f.plain.examine? i.val k = some (f.examine i k).plain := by
  have hknown : (f.clauses.get i).plain.knownSatisfied = (f.clauses.get i).knownSatisfied := rfl
  have hliterals : (f.clauses.get i).plain.literals.toList =
      (f.clauses.get i).literals.toList.map (·.toLiteral) := Array.toList_map
  have hany : ((f.clauses.get i).literals.toList.map (·.toLiteral)).anyM f.plain.isTrue? =
      some ((f.clauses.get i).literals.any f.isTrue) := by
    rw [← Array.any_toList]
    exact Plain.anyM_image fun l _ => isTrue?_plain l
  have hfilter : Plain.filter? f.plain.isOpen? ((f.clauses.get i).literals.toList.map (·.toLiteral)) =
      some (((f.clauses.get i).literals.toList.filter f.isOpen).map (·.toLiteral)) :=
    Plain.filter?_image fun l _ => isOpen?_plain l
  rw [Plain.Watched.examine?, getElem?_clauses_plain, Option.bind_eq_bind, Option.bind_some, hknown,
    hliterals, hany, hfilter, examine]
  split
  · rfl
  · rw [Option.bind_eq_bind, Option.bind_some]
    split
    · exact markSatisfied?_plain
    · rw [Option.bind_eq_bind, Option.bind_some]
      rcases (f.clauses.get i).literals.toList.filter f.isOpen with _ | ⟨l, _ | ⟨x, ls⟩⟩
      · rfl
      · have hassign := assign?_plain (f := { f with propagationSteps := f.propagationSteps + 1 })
          (l := l) (k := k) (retains_report.placed hp) hl.report
        calc
          _ = (some _).bind fun f => Plain.Watched.markSatisfied? f i.val k :=
            congrArg (Option.bind · _) hassign
          _ = _ := markSatisfied?_plain
      · rfl

/-- The queue holds each clause at most once. -/
theorem Logged.length_queue_le (hl : Logged f) : f.queue.toList.length ≤ m := by
  have hsubperm := hl.nodup_queue.subperm fun i _ => List.mem_finRange i
  simpa using hsubperm.length_le

/-- An upper bound on the rounds that are left: between one literal and the next no more clauses are
taken from the queue than there are. -/
def roundsLeft (f : Watched n m) : Nat := f.numNotTrue * (m + 1) + f.queue.toList.length

theorem Logged.roundsLeft_lt (hl : Logged f) : f.roundsLeft < (f.numNotTrue + 1) * (m + 1) := by
  have hqueue := hl.length_queue_le
  rw [roundsLeft, Nat.succ_mul]
  lia

/-- A round makes a literal true, or else leaves fewer clauses in the queue. -/
theorem Logged.roundsLeft_examine_lt (hl : Logged ((f.dequeue i q).examine i k))
    (hpop : f.queue.pop? = some (i, q)) :
    ((f.dequeue i q).examine i k).roundsLeft < f.roundsLeft := by
  have hsame : (f.dequeue i q).numNotTrue = f.numNotTrue := rfl
  have hrest : (f.dequeue i q).queue = q := rfl
  rcases examine_progress (f.dequeue i q) i k with hlt | ⟨heq, hq⟩
  · calc
      _ < (((f.dequeue i q).examine i k).numNotTrue + 1) * (m + 1) := hl.roundsLeft_lt
      _ ≤ f.numNotTrue * (m + 1) := Nat.mul_le_mul_right _ hlt
      _ ≤ f.roundsLeft := Nat.le_add_right _ _
  · rw [roundsLeft, roundsLeft, heq, hsame, hq, hrest, Queue.toList_of_pop? hpop, List.length_cons]
    lia

section

variable {cs : List (List (BoundedLiteral n))} {f : Watched n cs.length}

/-- No look-up fails in the rounds of propagation. -/
theorem Orderly.propagateFor?_plain (h : Orderly cs f) {rounds : Nat}
    (hrounds : f.roundsLeft < rounds) :
    Plain.Watched.propagateFor? k rounds f.plain = some (f.unitPropagate k).plain := by
  fun_induction Watched.unitPropagate f k generalizing rounds with
  | case1 f hu =>
    obtain ⟨rounds, rfl⟩ := Nat.exists_eq_add_one_of_ne_zero (Nat.ne_zero_of_lt hrounds)
    rw [Plain.Watched.propagateFor?, isUnsatisfiable_plain, if_pos hu]
    exact clearQueue?_plain
  | case2 f hu hpop =>
    obtain ⟨rounds, rfl⟩ := Nat.exists_eq_add_one_of_ne_zero (Nat.ne_zero_of_lt hrounds)
    have hqueue : f.plain.queue = [] := congrArg (List.map Fin.val) (Queue.pop?_eq_none_iff.mp hpop)
    rw [Plain.Watched.propagateFor?, isUnsatisfiable_plain, if_neg hu, hqueue]
  | case3 f hu i q hpop ih =>
    obtain ⟨rounds, rfl⟩ := Nat.exists_eq_add_one_of_ne_zero (Nat.ne_zero_of_lt hrounds)
    have hqueue : f.plain.queue = i.val :: q.toList.map Fin.val :=
      congrArg (List.map Fin.val) (Queue.toList_of_pop? hpop)
    have hlook := h.dequeue hpop
    have hnext := hlook.examine (i := i) (k := k)
    rw [Plain.Watched.propagateFor?, isUnsatisfiable_plain, if_neg hu, hqueue]
    simp only [dequeue?_plain, examine?_plain hlook.placed hlook.logged, Option.bind_eq_bind,
      Option.bind_some]
    exact ih hnext
      (Nat.lt_of_lt_of_le (hnext.logged.roundsLeft_examine_lt hpop) (Nat.le_of_lt_succ hrounds))

/-- No look-up fails in unit propagation, which comes to an end. -/
theorem Orderly.unitPropagate?_plain (h : Orderly cs f) :
    f.plain.unitPropagate? k = some (f.unitPropagate k).plain := by
  have hlevels : f.plain.levels.size = 2 * n := Vector.size_toArray _
  have hclauses : f.plain.clauses.size = cs.length := by simp [plain]
  have hopen : f.numNotTrue ≤ 2 * n := Vector.countP_le_size
  rw [Plain.Watched.unitPropagate?, hlevels, hclauses]
  exact h.propagateFor?_plain
    (Nat.lt_of_lt_of_le h.logged.roundsLeft_lt (Nat.mul_le_mul_right _ (Nat.succ_le_succ hopen)))

end

theorem undoTrail?_plain (trail : List (BoundedLiteral n)) (levels : LiteralTable n (Option Level)) :
    Plain.Watched.undoTrail? k (trail.map (·.toLiteral)) levels.entries.toArray =
      some ((undoTrail k trail levels).1.map (·.toLiteral),
        (undoTrail k trail levels).2.entries.toArray) := by
  fun_induction undoTrail k trail levels with
  | case1 levels => rfl
  | case2 levels l trail hstop =>
    rw [List.map_cons, Plain.Watched.undoTrail?, Plain.getElem?_entries, Option.bind_eq_bind,
      Option.bind_some, if_pos hstop]
  | case3 levels l trail hstop ih =>
    rw [List.map_cons, Plain.Watched.undoTrail?, Plain.getElem?_entries, Option.bind_eq_bind,
      Option.bind_some, if_neg hstop, Plain.update?_set]
    exact ih

theorem undoSatisfied?_plain (log : List (Fin m × Level)) (f : Watched n m) :
    Plain.Watched.undoSatisfied? k (log.map fun e => (e.1.val, e.2)) f.plain =
      some (undoSatisfied k log f).plain := by
  fun_induction undoSatisfied k log f with
  | case1 f => rfl
  | case2 i foundAt log f g hle =>
    rw [List.map_cons, Plain.Watched.undoSatisfied?]
    exact if_pos hle
  | case3 i foundAt log f g hlt ih =>
    have hforget : Plain.update? f.plain.countCheck.clauses i.val
        (fun c => some { c with knownSatisfied := false }) =
        some ((modifyAt f.clauses i fun c => { c with knownSatisfied := false }).toArray.map
          (·.plain)) := update?_clauses_plain rfl
    rw [List.map_cons, Plain.Watched.undoSatisfied?]
    dsimp only
    rw [if_neg hlt, hforget]
    exact ih

/-- No look-up fails when literals are forgotten. -/
theorem backtrack?_plain : f.plain.backtrack? k = some (f.backtrack k).plain := by
  have htrail : Plain.Watched.undoTrail? k f.plain.trail f.plain.levels = _ :=
    undoTrail?_plain f.trail f.levels
  have hsatisfied := undoSatisfied?_plain (k := k) f.satisfied { f with
    trail := (undoTrail k f.trail f.levels).1
    levels := (undoTrail k f.trail f.levels).2 }
  rw [Plain.Watched.backtrack?, htrail, Option.bind_eq_bind, Option.bind_some]
  exact congrArg (Option.bind · _) hsatisfied

/-! ### What is read off -/

theorem assignment_plain : f.plain.assignment = f.assignment.map (·.toLiteral) := List.map_reverse.symm

/-- No look-up fails when the live clauses are listed. -/
theorem liveClauses?_plain : f.plain.liveClauses? =
    some (f.liveClauses.map (List.map (·.toLiteral))) := by
  have hclauses : f.plain.clauses.toList.filter (fun c => !c.knownSatisfied) =
      (f.clauses.toList.filter fun c => !c.knownSatisfied).map (·.plain) := by
    rw [plain, Array.toList_map, List.filter_map]
    rfl
  have hclause (c : WatchedClause n) : Plain.filter? f.plain.isOpen? c.plain.literals.toList =
      some ((c.literals.toList.filter f.isOpen).map (·.toLiteral)) := by
    rw [WatchedClause.plain, Array.toList_map]
    exact Plain.filter?_image fun l _ => isOpen?_plain l
  rw [Plain.Watched.liveClauses?, hclauses]
  exact Plain.mapM_image fun c _ => hclause c

end Watched

end Dpll
