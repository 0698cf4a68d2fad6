/-! First-in first-out queues as two lists. `Queue.toList` is the view: `push` adds at its end
and `pop?` takes its head. -/

namespace Dpll

/-- A queue: the front in order, the back in reverse. -/
structure Queue (α : Type u) where
  front : List α
  back : List α

namespace Queue

variable {α : Type u}

/-- The queue without elements. -/
def empty : Queue α := ⟨[], []⟩

/-- The elements, next one first. -/
def toList (q : Queue α) : List α := q.front ++ q.back.reverse

/-- Adds an element at the end. -/
def push (q : Queue α) (a : α) : Queue α := ⟨q.front, a :: q.back⟩

/-- The next element and the queue without it. -/
def pop? (q : Queue α) : Option (α × Queue α) :=
  match q.front with
  | a :: front => some (a, ⟨front, q.back⟩)
  | [] =>
    match q.back.reverse with
    | a :: front => some (a, ⟨front, []⟩)
    | [] => none

@[simp]
theorem toList_empty : (empty : Queue α).toList = [] := rfl

@[simp]
theorem toList_push (q : Queue α) (a : α) : (q.push a).toList = q.toList ++ [a] := by
  simp [push, toList]

theorem pop?_eq_none_iff {q : Queue α} : q.pop? = none ↔ q.toList = [] := by
  rcases q with ⟨_ | ⟨a, front⟩, back⟩
  · cases h : back.reverse <;> simp [pop?, toList, h]
  · simp [pop?, toList]

theorem toList_of_pop? {q r : Queue α} {a : α} (h : q.pop? = some (a, r)) :
    q.toList = a :: r.toList := by
  rcases q with ⟨_ | ⟨b, front⟩, back⟩
  · cases hb : back.reverse with
    | nil => simp [pop?, hb] at h
    | cons b front =>
      simp only [pop?, hb, Option.some.injEq, Prod.mk.injEq] at h
      simp [toList, hb, ← h.1, ← h.2]
  · simp only [pop?, Option.some.injEq, Prod.mk.injEq] at h
    simp [toList, ← h.1, ← h.2]

end Queue

end Dpll
