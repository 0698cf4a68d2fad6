import Dpll.Proofs.Watched.Maintenance

/-! Watch maintenance. When a literal is falsified, every clause that watches it reacts
(`Watched.Reacts`): it is satisfied, it is queued, or it watches an open literal instead. While a list
is being visited, the formula is looked at with the rest of the list put back (`Watched.restore`);
seen so, every visit keeps the books, and so does making a literal true, from every state. -/

namespace Dpll

namespace Watched

variable {n m : Nat} {f g h : Watched n m} {w u : Watch} {l x y z : BoundedLiteral n} {i j : Fin m}
  {k : Level}

/-! ### Moving a watch -/

/-- Watch `w` of clause `i` leaves `x` for `y`, which stands at position `p`, and the clause goes from
the one list to the other. Nothing else happens. -/
structure Moved (w : Watch) (x y : BoundedLiteral n) (i : Fin m) (p : Nat) (f g : Watched n m) :
    Prop where
  literal : (f.body i)[p]? = some y
  clauses : ∀ j, g.clauses.get j =
    if i = j then (f.clauses.get j).setPosition w p else f.clauses.get j
  mem_watchers : ∀ u z j, j ∈ (g.watchers u z).toList ↔
    (j ∈ (f.watchers u z).toList ∧ ¬(u = w ∧ z = x ∧ j = i)) ∨ (u = w ∧ z = y ∧ j = i)
  nodup_watchers : ∀ u z, (g.watchers u z).toList.Nodup
  rest : g = { f with
    clauses := g.clauses
    firstWatchers := g.firstWatchers
    secondWatchers := g.secondWatchers
    checkedClauses := g.checkedClauses }

namespace Moved

variable {p : Nat} (H : Moved w x y i p f g)

include H

theorem literals (j : Fin m) : (g.clauses.get j).literals = (f.clauses.get j).literals := by
  rw [H.clauses]
  split
  · cases w <;> rfl
  · rfl

theorem body (j : Fin m) : g.body j = f.body j := by
  rw [Watched.body, H.literals, Watched.body]

theorem known (j : Fin m) : g.Known j ↔ f.Known j := by
  rw [Known, H.clauses, Known]
  split
  · cases w <;> rfl
  · rfl

theorem queued (j : Fin m) : g.Queued j ↔ f.Queued j := by
  rw [Queued, H.clauses, Queued]
  split
  · cases w <;> rfl
  · rfl

theorem position (j : Fin m) (u : Watch) : (g.clauses.get j).position u =
    if i = j ∧ w = u then p else (f.clauses.get j).position u := by
  rw [H.clauses]
  by_cases hij : i = j
  · cases w <;> cases u <;> simp [hij, WatchedClause.setPosition, WatchedClause.position]
  · simp [hij]

theorem watched (j : Fin m) (u : Watch) :
    g.watched u j = if i = j ∧ w = u then some y else f.watched u j := by
  change (g.body j)[_]? = _
  rw [H.body, H.position]
  split
  · rename_i hij
    rw [← hij.1, H.literal]
  · rfl

theorem maintains : Maintains l k f g where
  literals := H.literals
  levels := by rw [H.rest]
  trail := by rw [H.rest]
  hasEmptyClause := by rw [H.rest]
  conflict := by rw [H.rest]
  propagationSteps := by rw [H.rest]
  satisfied := ⟨[], by rw [H.rest, List.nil_append], List.forall_mem_nil _⟩
  queue := ⟨[], by rw [List.append_nil, H.rest], List.forall_mem_nil _⟩

theorem logged (hf : Logged f) : Logged g :=
  hf.congr H.queued H.known (by rw [H.rest]) (by rw [H.rest])

theorem placed (hf : Placed f) (hi : i ∈ (f.watchers w x).toList)
    (hne : p ≠ (f.clauses.get i).position w.other) (hyx : y ≠ x) : Placed g := by
  obtain ⟨hlen, hwi⟩ := (hf.mem_watchers w x i).mp hi
  refine ⟨fun j => H.body j ▸ hf.nodup j, fun j u hj => ?_, fun j u hj => ?_, fun u z j => ?_,
    H.nodup_watchers⟩
  · rw [H.body] at hj ⊢
    rw [H.position]
    split
    · rename_i hij
      exact hij.1 ▸ (List.getElem?_eq_some_iff.mp H.literal).1
    · exact hf.lt j u hj
  · rw [H.body] at hj
    rw [H.position, H.position]
    by_cases hij : i = j
    · subst hij
      cases w <;> cases u <;> simp [Watch.other] at hne ⊢ <;> first
        | exact hne
        | exact Ne.symm hne
    · rw [if_neg (by simp [hij]), if_neg (by simp [hij])]
      exact hf.ne j u hj
  · rw [H.mem_watchers, hf.mem_watchers, H.body, H.watched]
    by_cases hij : i = j
    · subst hij
      by_cases hu : u = w
      · subst hu
        simp only [hwi, hlen, true_and, and_true, if_true, Option.some.injEq]
        constructor
        · rintro (⟨rfl, hz⟩ | rfl)
          · exact absurd rfl hz
          · rfl
        · rintro rfl
          exact .inr rfl
      · simp [hu, Ne.symm hu]
    · simp [hij, Ne.symm hij]

end Moved

/-! ### Visits -/

/-- What becomes of a clause whose watched literal `x` was falsified. -/
inductive Reacts (w : Watch) (x : BoundedLiteral n) (i : Fin m) (f g : Watched n m) : Prop
  /-- It is satisfied. -/
  | satisfied (known : g.Known i) (watched : g.watched w i = some x)
  /-- It is queued, and at most its other watch is open. -/
  | queued (queued : g.Queued i) (watched : g.watched w i = some x)
    (rest : ∀ z ∈ f.body i, f.isTrue z = false ∧
      (f.watched w.other i = some z ∨ f.isOpen z = false))
  /-- It watches an open literal instead. -/
  | moved {y : BoundedLiteral n} (known : ¬f.Known i) (mem : y ∈ f.body i)
    (isOpen : f.isOpen y = true) (ne : f.watched w.other i ≠ some y)
    (watched : g.watched w i = some y)

/-- The clauses `is` have reacted to the falsified literal `x`, and the others keep their watches. -/
structure Visits (w : Watch) (x : BoundedLiteral n) (k : Level) (is : List (Fin m))
    (f g : Watched n m) : Prop where
  maintains : Maintains x k f g
  placed : Placed g
  logged : Logged g
  other : ∀ j, g.watched w.other j = f.watched w.other j
  same : ∀ j ∉ is, g.watched w j = f.watched w j
  reacts : ∀ j ∈ is, Reacts w x j f g

theorem Maintains.known (H : Maintains x k f g) (hf : Logged f) (hg : Logged g) (hi : f.Known i) :
    g.Known i := by
  obtain ⟨new, heq, _⟩ := H.satisfied
  rw [hg.known, heq, List.map_append]
  exact List.mem_append_right _ ((hf.known i).mp hi)

theorem Maintains.queued (H : Maintains x k f g) (hf : Logged f) (hg : Logged g) (hi : f.Queued i) :
    g.Queued i := by
  obtain ⟨new, heq, _⟩ := H.queue
  rw [hg.queued, heq]
  exact List.mem_append_left _ ((hf.queued i).mp hi)

namespace Reacts

/-- What a clause has become is kept, whatever other clauses do. -/
theorem later (H : Reacts w x i f g) (hm : Maintains x k g h) (hg : Logged g) (hh : Logged h)
    (hw : h.watched w i = g.watched w i) : Reacts w x i f h := by
  cases H with
  | satisfied hk hx => exact .satisfied (hm.known hg hh hk) (hw.trans hx)
  | queued hq hx hrest => exact .queued (hm.queued hg hh hq) (hw.trans hx) hrest
  | moved hk hy ho hne hx => exact .moved hk hy ho hne (hw.trans hx)

/-- A clause reacts to its literals and to its other watch, which nothing else changes. -/
theorem sooner (H : Reacts w x i g h) (hm : Maintains y k f g) (hf : Logged f) (hg : Logged g)
    (hother : g.watched w.other i = f.watched w.other i) : Reacts w x i f h := by
  cases H with
  | satisfied hk hx => exact .satisfied hk hx
  | queued hq hx hrest =>
    rw [hm.body, hm.isTrue, hm.isOpen, hother] at hrest
    exact .queued hq hx hrest
  | moved hk hy ho hne hx =>
    rw [hm.body] at hy
    rw [hm.isOpen] at ho
    rw [hother] at hne
    exact .moved (mt (hm.known hf hg) hk) hy ho hne hx

end Reacts

namespace Visits

variable {is : List (Fin m)}

theorem nil (hp : Placed f) (hl : Logged f) : Visits w x k [] f f :=
  ⟨.refl, hp, hl, fun _ => rfl, fun _ _ => rfl, nofun⟩

theorem cons (hf : Logged f) (H : Visits w x k [i] f g) (H' : Visits w x k is g h) (hi : i ∉ is) :
    Visits w x k (i :: is) f h where
  maintains := H.maintains.trans H'.maintains
  placed := H'.placed
  logged := H'.logged
  other j := (H'.other j).trans (H.other j)
  same j hj := by
    rw [List.mem_cons, not_or] at hj
    rw [H'.same j hj.2, H.same j (by simpa using hj.1)]
  reacts j hj := by
    rcases List.mem_cons.mp hj with rfl | hj
    · exact (H.reacts j (List.mem_singleton_self j)).later H'.maintains H.logged H'.logged (H'.same j hi)
    · exact (H'.reacts j hj).sooner H.maintains hf H.logged (H.other j)

end Visits

/-! ### The list being visited -/

/-- The formula with the given clauses in one of its lists. -/
def restore (w : Watch) (x : BoundedLiteral n) (is : List (Fin m)) (f : Watched n m) : Watched n m :=
  f.modifyWatchers w x fun _ => is.toArray

@[simp]
theorem clauses_modifyWatchers (r : Array (Fin m) → Array (Fin m)) :
    (f.modifyWatchers u y r).clauses = f.clauses := by
  cases u <;> rfl

theorem restore_countCheck {is : List (Fin m)} :
    restore w x is f.countCheck = (restore w x is f).countCheck := by
  cases w <;> rfl

theorem restore_note {is : List (Fin m)} {journal : Journal (ClauseEvent (BoundedLiteral n))} :
    restore w x is { f.countCheck with journal } =
      { (restore w x is f).countCheck with journal } := by
  cases w <;> rfl

theorem restore_markSatisfied {is : List (Fin m)} :
    restore w x is (f.markSatisfied i k) = (restore w x is f).markSatisfied i k := by
  unfold markSatisfied restore
  rw [clauses_modifyWatchers]
  split <;> cases w <;> rfl

theorem restore_enqueue {is : List (Fin m)} :
    restore w x is (f.enqueue i) = (restore w x is f).enqueue i := by
  unfold enqueue restore
  rw [clauses_modifyWatchers]
  split <;> cases w <;> rfl

theorem Placed.countCheck (hp : Placed f) : Placed f.countCheck :=
  hp.congr (fun _ => rfl) (fun _ _ => rfl) fun _ _ => rfl

theorem Logged.countCheck (hl : Logged f) : Logged f.countCheck :=
  hl.congr (fun _ => .rfl) (fun _ => .rfl) rfl rfl

theorem visits_known (hp : Placed f) (hl : Logged f) (hw : f.watched w i = some x)
    (hk : f.Known i) : Visits w x k [i] f f.countCheck where
  maintains := .countCheck
  placed := hp.countCheck
  logged := hl.countCheck
  other _ := rfl
  same _ _ := rfl
  reacts j hj := by
    obtain rfl := List.mem_singleton.mp hj
    exact .satisfied hk hw

theorem visits_satisfied (hp : Placed f) (hl : Logged f) (hw : f.watched w i = some x)
    (hy : ∃ y ∈ f.body i, f.isTrue y = true) :
    Visits w x k [i] f (f.countCheck.markSatisfied i k) where
  maintains := Maintains.countCheck.trans (.markSatisfied hy)
  placed := hp.countCheck.markSatisfied
  logged := hl.countCheck.markSatisfied
  other _ := watched_markSatisfied
  same _ _ := watched_markSatisfied
  reacts j hj := by
    obtain rfl := List.mem_singleton.mp hj
    exact .satisfied (known_markSatisfied.mpr (.inl rfl)) (watched_markSatisfied.trans hw)

theorem visits_unit (hp : Placed f) (hl : Logged f) (hw : f.watched w i = some x)
    (hlen : 1 < (f.body i).length) (hx : x ∈ f.body i)
    (hrest : ∀ z ∈ f.body i, f.isTrue z = false ∧
      (f.watched w.other i = some z ∨ f.isOpen z = false))
    (journal : Journal (ClauseEvent (BoundedLiteral n))) :
    Visits w x k [i] f ({ f.countCheck with journal }.enqueue i) where
  maintains := by
    have hnote : Maintains x k f { f.countCheck with journal } :=
      ⟨fun _ => rfl, rfl, rfl, rfl, rfl, rfl, ⟨[], rfl, nofun⟩,
        ⟨[], by simp [Watched.countCheck], nofun⟩⟩
    exact hnote.trans (.enqueue hlen hx)
  placed := (hp.congr (g := { f.countCheck with journal }) (fun _ => rfl) (fun _ _ => rfl)
    fun _ _ => rfl).enqueue
  logged := (hl.congr (g := { f.countCheck with journal }) (fun _ => .rfl) (fun _ => .rfl)
    rfl rfl).enqueue
  other _ := watched_enqueue
  same _ _ := watched_enqueue
  reacts j hj := by
    obtain rfl := List.mem_singleton.mp hj
    exact .queued (queued_enqueue.mpr (.inl rfl)) (watched_enqueue.trans hw) hrest

theorem toList_watchers_restore {is : List (Fin m)} :
    ((restore w x is f).watchers u z).toList =
      if w = u ∧ x = z then is else (f.watchers u z).toList := by
  rw [restore, watchers_modifyWatchers]
  split <;> rfl

theorem visits_moved {p : Nat} (H : Moved w x y i p f g) (hp : Placed f) (hl : Logged f)
    (hi : i ∈ (f.watchers w x).toList) (hk : ¬f.Known i)
    (hne : p ≠ (f.clauses.get i).position w.other) (hyx : y ≠ x) (hy : f.isOpen y = true) :
    Visits w x k [i] f g where
  maintains := H.maintains
  placed := H.placed hp hi hne hyx
  logged := H.logged hl
  other j := by rw [H.watched, if_neg (by cases w <;> simp [Watch.other])]
  same j hj := by rw [H.watched, if_neg (by simpa [eq_comm] using hj)]
  reacts j hj := by
    obtain rfl := List.mem_singleton.mp hj
    refine .moved hk (List.mem_of_getElem? H.literal) hy (fun hother => hne ?_) ?_
    · exact (List.getElem?_inj (List.getElem?_eq_some_iff.mp H.literal).1 (hp.nodup j)).mp
        (H.literal.trans hother.symm)
    · rw [H.watched, if_pos ⟨rfl, rfl⟩]

/-- The lists when clause `i` has gone to that of `y`, and the list being visited is put back. -/
theorem toList_watchers_restore_push {is : List (Fin m)} {clauses : Vector (WatchedClause n) m} :
    ((restore w x is ({ f.countCheck with clauses }.modifyWatchers w y (·.push i))).watchers u
        z).toList =
      if w = u ∧ x = z then is
      else if w = u ∧ y = z then (f.watchers u z).toList ++ [i] else (f.watchers u z).toList := by
  rw [toList_watchers_restore, watchers_modifyWatchers]
  congr 1
  split
  · rw [Array.toList_push]
    cases u <;> rfl
  · cases u <;> rfl

/-- A clause stands in one list of each watch. -/
theorem Placed.not_mem_watchers (hp : Placed f) (hi : i ∈ (f.watchers w x).toList) (hyx : y ≠ x) :
    i ∉ (f.watchers w y).toList := by
  intro hy
  have hwx := ((hp.mem_watchers w x i).mp hi).2
  have hwy := ((hp.mem_watchers w y i).mp hy).2
  exact hyx (Option.some.inj (hwy.symm.trans hwx))

/-- A watch that moves away from `x` leaves the list that is being visited. -/
theorem moved_restore {kept rest : List (Fin m)} {p : Nat}
    (hp : Placed (restore w x (kept ++ i :: rest) f)) (hy : (f.body i)[p]? = some y) (hyx : y ≠ x) :
    Moved w x y i p (restore w x (kept ++ i :: rest) f)
      (restore w x (kept ++ rest)
        ({ f.countCheck with clauses := modifyAt f.clauses i (·.setPosition w p) }.modifyWatchers w y
          (·.push i))) := by
  have hbefore (u z) : ((restore w x (kept ++ i :: rest) f).watchers u z).toList =
      if w = u ∧ x = z then kept ++ i :: rest else (f.watchers u z).toList := toList_watchers_restore
  have hlist := hp.nodup_watchers w x
  rw [hbefore, if_pos ⟨rfl, rfl⟩] at hlist
  obtain ⟨hi, hrest⟩ := List.nodup_cons.mp (List.nodup_middle.mp hlist)
  refine ⟨?_, fun j => ?_, fun u z j => ?_, fun u z => ?_, ?_⟩
  · rw [body, restore, clauses_modifyWatchers]
    exact hy
  · rw [restore, restore, clauses_modifyWatchers, clauses_modifyWatchers, clauses_modifyWatchers]
    exact get_modifyAt ..
  · rw [toList_watchers_restore_push, hbefore]
    by_cases hux : w = u ∧ x = z
    · obtain ⟨rfl, rfl⟩ := hux
      by_cases hij : j = i
      · subst hij
        simpa [hyx.symm] using hi
      · simp [hij]
    · rw [if_neg hux, if_neg hux]
      by_cases huy : w = u ∧ y = z
      · obtain ⟨rfl, rfl⟩ := huy
        simp [hyx]
      · rw [if_neg huy]
        grind
  · have hother := hp.nodup_watchers u z
    rw [hbefore] at hother
    rw [toList_watchers_restore_push]
    split
    · exact hrest
    · rename_i hux
      rw [if_neg hux] at hother
      split
      · rename_i huy
        obtain ⟨rfl, rfl⟩ := huy
        have hnew : i ∉ ((restore w x (kept ++ i :: rest) f).watchers w y).toList :=
          hp.not_mem_watchers (by simp [hbefore]) hyx
        rw [hbefore, if_neg hux] at hnew
        exact List.nodup_append.mpr ⟨hother, List.nodup_singleton i, fun a ha b hb hab =>
          hnew (List.mem_singleton.mp hb ▸ hab ▸ ha)⟩
      · exact hother
  · cases w <;> rfl

/-- A visit lets one clause react. -/
theorem visit_spec {kept : Array (Fin m)} {rest : List (Fin m)}
    (hp : Placed (restore w x (kept.toList ++ i :: rest) f))
    (hl : Logged (restore w x (kept.toList ++ i :: rest) f)) (hx : f.isOpen x = false) :
    Visits w x k [i] (restore w x (kept.toList ++ i :: rest) f)
      (restore w x ((visit w k (kept, f) i).1.toList ++ rest) (visit w k (kept, f) i).2) := by
  have hlist : ((restore w x (kept.toList ++ i :: rest) f).watchers w x).toList =
      kept.toList ++ i :: rest := by
    simp [restore, watchers_modifyWatchers]
  have hi : i ∈ ((restore w x (kept.toList ++ i :: rest) f).watchers w x).toList := by
    simp [hlist]
  obtain ⟨hlen, hw⟩ := (hp.mem_watchers w x i).mp hi
  have hxi := List.mem_of_getElem? hw
  have hkept : (kept.push i).toList ++ rest = kept.toList ++ i :: rest := by simp
  have hclauses : (restore w x (kept.toList ++ i :: rest) f).clauses = f.clauses :=
    clauses_modifyWatchers _
  have hsame : Maintains x k f (restore w x (kept.toList ++ i :: rest) f) := .modifyWatchers _
  unfold visit
  dsimp only
  split
  · rename_i hknown
    rw [hkept, restore_countCheck]
    refine visits_known hp hl hw ?_
    rw [Known, hclauses]
    exact hknown
  · rename_i hknown
    split
    · rename_i hfound
      rw [hkept, restore_markSatisfied, restore_countCheck]
      refine visits_satisfied hp hl hw ?_
      rw [hsame.isTrue, hsame.body]
      exact WatchedClause.exists_true_of_satisfied hfound
    · rename_i hfound
      rw [hkept, restore_enqueue, restore_note]
      refine visits_unit hp hl hw hlen hxi (fun z hz => ?_) _
      rw [hsame.body] at hz
      rw [hsame.isTrue, hsame.isOpen, watched, hclauses]
      exact WatchedClause.other_of_unit hfound hz
    · rename_i p hfound
      obtain ⟨hne, ho⟩ := WatchedClause.open_of_move hfound
      generalize hlit : (f.countCheck.clauses.get i).literals.toList.get p = y at ho
      have hy : (f.body i)[p.val]? = some y := by
        rw [← hlit, List.get_eq_getElem]
        exact List.getElem?_eq_getElem _
      have hyx : y ≠ x := by
        rintro rfl
        exact Bool.false_ne_true (hx.symm.trans ho)
      subst hlit
      refine visits_moved (moved_restore hp hy hyx) hp hl hi ?_ ?_ hyx ?_
      · rw [Known, hclauses]
        exact hknown
      · rw [hclauses]
        exact hne
      · rw [hsame.isOpen]
        exact ho

/-- The whole list reacts, one clause after the other. -/
theorem foldl_visit_spec {kept : Array (Fin m)} {is : List (Fin m)}
    (hp : Placed (restore w x (kept.toList ++ is) f))
    (hl : Logged (restore w x (kept.toList ++ is) f)) (hx : f.isOpen x = false) :
    Visits w x k is (restore w x (kept.toList ++ is) f)
      (restore w x (is.foldl (visit w k) (kept, f)).1.toList (is.foldl (visit w k) (kept, f)).2) := by
  induction is generalizing kept f with
  | nil =>
    rw [List.append_nil] at hp hl ⊢
    exact .nil hp hl
  | cons i is ih =>
    have H := visit_spec (k := k) hp hl hx
    have hx' : (visit w k (kept, f) i).2.isOpen x = false := by
      rw [isOpen, isTrue, isTrue, levels_visit]
      exact hx
    have hnodup := hp.nodup_watchers w x
    rw [toList_watchers_restore, if_pos ⟨rfl, rfl⟩] at hnodup
    have hi : i ∉ is := fun hi =>
      (List.nodup_cons.mp (List.nodup_middle.mp hnodup)).1 (List.mem_append_right _ hi)
    exact .cons hl H (ih H.placed H.logged hx') hi

/-! ### Updating the watches of a literal -/

private theorem modify_modify {α : Type u} (t : LiteralTable n α) (r : α → α) :
    (t.modify l r).modify l (fun _ => t.get l) = t := by
  rcases t with ⟨entries⟩
  simp only [LiteralTable.modify, LiteralTable.mk.injEq]
  apply Vector.ext
  intro p hp
  rw [getElem_modifyAt, getElem_modifyAt]
  split
  · rename_i hlp
    subst hlp
    rfl
  · rfl

theorem restore_self (r : Array (Fin m) → Array (Fin m)) :
    restore w x (f.watchers w x).toList (f.modifyWatchers w x r) = f := by
  cases w with
  | first => exact congrArg (fun t => { f with firstWatchers := t }) (modify_modify _ r)
  | second => exact congrArg (fun t => { f with secondWatchers := t }) (modify_modify _ r)

theorem visit_watchers_spec (hp : Placed f) (hl : Logged f) (hx : f.isOpen x = false) :
    Visits w x k (f.watchers w x).toList f
      (((f.watchers w x).toList.foldl (visit w k)
        (#[], f.modifyWatchers w x fun _ => #[])).2.modifyWatchers w x fun _ =>
          ((f.watchers w x).toList.foldl (visit w k) (#[], f.modifyWatchers w x fun _ => #[])).1) := by
  have hself : restore w x ((#[] : Array (Fin m)).toList ++ (f.watchers w x).toList)
      (f.modifyWatchers w x fun _ => #[]) = f := restore_self _
  have hsame : Maintains x k f (f.modifyWatchers w x fun _ => #[]) := .modifyWatchers _
  have H := foldl_visit_spec (k := k) (hself.symm ▸ hp) (hself.symm ▸ hl)
    ((congrFun hsame.isOpen x).trans hx)
  rw [hself] at H
  exact H

/-- Every one of the clauses is marked as satisfied. -/
theorem foldl_markSatisfied_spec {is : List (Fin m)} (hp : Placed f) (hl : Logged f)
    (his : ∀ i ∈ is, ∃ y ∈ f.body i, f.isTrue y = true) :
    Maintains x k f (is.foldl (fun f i => f.countCheck.markSatisfied i k) f) ∧
      Placed (is.foldl (fun f i => f.countCheck.markSatisfied i k) f) ∧
      Logged (is.foldl (fun f i => f.countCheck.markSatisfied i k) f) ∧
      (∀ u j, (is.foldl (fun f i => f.countCheck.markSatisfied i k) f).watched u j = f.watched u j) ∧
      ∀ i ∈ is, (is.foldl (fun f i => f.countCheck.markSatisfied i k) f).Known i := by
  induction is generalizing f with
  | nil => exact ⟨.refl, hp, hl, fun _ _ => rfl, nofun⟩
  | cons i is ih =>
    have hstep : Maintains x k f (f.countCheck.markSatisfied i k) :=
      Maintains.countCheck.trans (.markSatisfied (his i List.mem_cons_self))
    have hlstep : Logged (f.countCheck.markSatisfied i k) := hl.countCheck.markSatisfied
    obtain ⟨hm, hp', hl', hw, hk⟩ := ih (f := f.countCheck.markSatisfied i k)
      hp.countCheck.markSatisfied hlstep fun j hj => by
        rw [hstep.body, hstep.isTrue]
        exact his j (List.mem_cons_of_mem i hj)
    refine ⟨hstep.trans hm, hp', hl', fun u j => (hw u j).trans watched_markSatisfied, fun j hj => ?_⟩
    rcases List.mem_cons.mp hj with rfl | hj
    · exact hm.known hlstep hl' (known_markSatisfied.mpr (.inl rfl))
    · exact hk j hj

/-- The clauses have been told with one of their watches that `l` is true. -/
structure Updated (w : Watch) (l : BoundedLiteral n) (k : Level) (f g : Watched n m) : Prop where
  maintains : Maintains (-l) k f g
  placed : Placed g
  logged : Logged g
  other : ∀ i, g.watched w.other i = f.watched w.other i
  same : ∀ i, f.watched w i ≠ some (-l) → g.watched w i = f.watched w i
  satisfied : ∀ i, 1 < (f.body i).length → f.watched w i = some l → g.Known i
  reacts : ∀ i, 1 < (f.body i).length → f.watched w i = some (-l) → Reacts w (-l) i f g

theorem updateWatches_spec (hp : Placed f) (hl : Logged f) (htrue : f.isTrue l = true) :
    Updated w l k f (f.updateWatches w l k) := by
  have hmem (i) (hi : i ∈ (f.watchers w l).toList) : ∃ y ∈ f.body i, f.isTrue y = true :=
    ⟨l, List.mem_of_getElem? ((hp.mem_watchers w l i).mp hi).2, htrue⟩
  obtain ⟨hm, hp', hl', hw, hk⟩ := foldl_markSatisfied_spec (k := k) (x := -l) hp hl hmem
  unfold updateWatches
  dsimp only
  rw [← Array.foldl_toList, ← Array.foldl_toList]
  generalize (f.watchers w l).toList.foldl _ f = g at hm hp' hl' hw hk ⊢
  have hneg : g.isOpen (-l) = false := by
    rw [hm.isOpen, isOpen, BoundedLiteral.neg_neg, htrue]
    simp
  have H := visit_watchers_spec (w := w) (k := k) hp' hl' hneg
  generalize (((g.watchers w (-l)).toList.foldl (visit w k) _).2.modifyWatchers w (-l) _) = r at H ⊢
  refine ⟨hm.trans H.maintains, H.placed, H.logged, fun i => (H.other i).trans (hw _ i),
    fun i hi => ?_, fun i hlen hi => ?_, fun i hlen hi => ?_⟩
  · rw [H.same i fun h => hi ((hw w i).symm.trans ((hp'.mem_watchers w (-l) i).mp h).2), hw]
  · exact H.maintains.known hl' H.logged (hk i ((hp.mem_watchers w l i).mpr ⟨hlen, hi⟩))
  · have hi' : i ∈ (g.watchers w (-l)).toList :=
      (hp'.mem_watchers w (-l) i).mpr ⟨hm.body i ▸ hlen, (hw w i).trans hi⟩
    exact (H.reacts i hi').sooner hm hl hl' (hw _ i)

end Watched

end Dpll
