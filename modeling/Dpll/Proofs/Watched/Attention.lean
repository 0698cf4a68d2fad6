import Dpll.Proofs.Watched.History

/-! Why the watches suffice. A clause that watches a literal made true at a level is known to be
satisfied since that level; one that watches a literal made false is known to be satisfied too, or
has nothing else to watch (`Watched.Heeds`). The levels in this make it survive undoing, although the
watches stay where they are. A clause with something to do is therefore always found when one of its
literals is falsified (`Watched.queued_of_assign`). -/

namespace Dpll

theorem Watch.eq_or_eq_other (u w : Watch) : u = w ∨ u = w.other := by
  cases u <;> cases w <;> simp [other]

@[simp]
theorem Watch.other_other (w : Watch) : w.other.other = w := by
  cases w <;> rfl

namespace Watched

variable {n m : Nat} {f g h : Watched n m} {w u : Watch} {l x y z : BoundedLiteral n} {i : Fin m}
  {c k : Level} {e : Level × BoundedLiteral n}

/-- The clauses have drawn with one of their watches the consequences of an entry of the timeline. -/
def Heeds (f : Watched n m) (w : Watch) (e : Level × BoundedLiteral n) : Prop :=
  ∀ i, 1 < (f.body i).length →
    (f.watched w i = some e.2 → ∃ s ≤ e.1, (i, s) ∈ f.satisfied) ∧
    (f.watched w i = some (-e.2) → (∃ s ≤ e.1, (i, s) ∈ f.satisfied) ∨
      ∀ z ∈ f.body i, f.watched w.other i = some z ∨ -z ∈ f.timeline.upTo e.1)

/-- Both watches have heeded the entries. -/
def Attends (f : Watched n m) (E : Timeline n) : Prop := ∀ e ∈ E, ∀ w, f.Heeds w e

theorem Heeds.fix (H : f.Heeds w e) (hl : l ∉ f.trail) : (f.fix l k).Heeds w e := by
  intro i hlen
  obtain ⟨htrue, hfalse⟩ := H i hlen
  refine ⟨htrue, fun hw => ?_⟩
  rcases hfalse hw with hs | hrest
  · exact .inl hs
  · refine .inr fun z hz => (hrest z hz).imp_right fun hneg => ?_
    rw [timeline_fix hl]
    exact Timeline.upTo_cons_subset hneg

theorem Maintains.mem_satisfied (H : Maintains x k f g) {d : Fin m × Level} (hd : d ∈ f.satisfied) :
    d ∈ g.satisfied := by
  obtain ⟨new, heq, _⟩ := H.satisfied
  rw [heq]
  exact List.mem_append_right _ hd

/-- What is true or false is not open. -/
theorem Timely.not_isOpen (ht : Timely f c) (he : e ∈ f.timeline) :
    f.isOpen e.2 = false ∧ f.isOpen (-e.2) = false := by
  have hmem : e.2 ∈ f.trail := literals_timeline (f := f) ▸ Timeline.mem_literals.mpr ⟨e.1, he⟩
  rw [Bool.eq_false_iff, Bool.eq_false_iff, ne_eq, ne_eq, ht.isOpen_iff, ht.isOpen_iff]
  exact ⟨fun h => h.1 hmem, fun h => h.2 (by rwa [BoundedLiteral.neg_neg])⟩

namespace Updated

/-- A watch that sees a literal that is not open was there before. -/
theorem watched_of_not_isOpen (H : Updated w l k f g) (hlen : 1 < (f.body i).length)
    (hg : g.watched w i = some x) (hx : f.isOpen x = false) : f.watched w i = some x := by
  by_cases hw : f.watched w i = some (-l)
  · cases H.reacts i hlen hw with
    | satisfied _ hneg | queued _ hneg _ => rw [← hg, hneg, hw]
    | moved _ _ ho _ hy =>
      rw [hg, Option.some.injEq] at hy
      rw [← hy, hx] at ho
      cases ho
  · rw [← H.same i hw, hg]

/-- What was heeded before is still heeded. -/
theorem heeds (H : Updated w l k f g) (ht : Timely f c) (hl : (k, l) ∈ f.timeline)
    (he : e ∈ f.timeline) (hu : f.Heeds u e) : g.Heeds u e := by
  intro i hlen
  rw [H.maintains.body] at hlen ⊢
  obtain ⟨htrue, hfalse⟩ := hu i hlen
  obtain ⟨ho, hneg⟩ := ht.not_isOpen he
  have hlog (h : ∃ s ≤ e.1, (i, s) ∈ f.satisfied) : ∃ s ≤ e.1, (i, s) ∈ g.satisfied := by
    obtain ⟨s, hs, hmem⟩ := h
    exact ⟨s, hs, H.maintains.mem_satisfied hmem⟩
  have hsame {y} (hy : f.isOpen y = false) (hg : g.watched u i = some y) : f.watched u i = some y := by
    rcases u.eq_or_eq_other w with rfl | rfl
    · exact H.watched_of_not_isOpen hlen hg hy
    · rw [← H.other, hg]
  refine ⟨fun hw => hlog (htrue (hsame ho hw)), fun hw => ?_⟩
  rcases hfalse (hsame hneg hw) with hs | hrest
  · exact .inl (hlog hs)
  · refine .inr fun z hz => ?_
    rw [H.maintains.timeline]
    rcases u.eq_or_eq_other w with rfl | rfl
    · rw [H.other]
      exact hrest z hz
    · rw [Watch.other_other] at hrest ⊢
      by_cases hwl : f.watched w i = some (-l)
      · cases H.reacts i hlen hwl with
        | satisfied _ hx | queued _ hx _ =>
          rw [hx, ← hwl]
          exact hrest z hz
        | moved _ hy hyo hne _ =>
          -- the watch moved to an open literal, but the other watch had left none
          exfalso
          rw [ht.isOpen_iff] at hyo
          rcases hrest _ hy with hyl | hyneg
          · rw [hwl, Option.some.injEq] at hyl
            have hlneg := (ht.not_isOpen hl).2
            rw [hyl, Bool.eq_false_iff, ne_eq, ht.isOpen_iff] at hlneg
            exact hlneg hyo
          · exact hyo.2 (literals_timeline (f := f) ▸ Timeline.upTo_subset hyneg)
      · rw [H.same i hwl]
        exact hrest z hz

/-- The literal that the clauses were told of is heeded. -/
theorem heeds_self (H : Updated w l k f g) (ht : Timely f k) (he : (k, l) ∈ f.timeline) :
    g.Heeds w (k, l) := by
  intro i hlen
  rw [H.maintains.body] at hlen ⊢
  obtain ⟨ho, hneg⟩ := ht.not_isOpen he
  have hg := ht.maintains H.maintains
  have hlog (h : g.Known i) : ∃ s ≤ k, (i, s) ∈ g.satisfied := by
    obtain ⟨⟨j, s⟩, hs, rfl⟩ := List.mem_map.mp ((H.logged.known i).mp h)
    exact ⟨s, hg.le _ hs, hs⟩
  refine ⟨fun hw => hlog (H.satisfied i hlen (H.watched_of_not_isOpen hlen hw ho)), fun hw => ?_⟩
  have hwl := H.watched_of_not_isOpen hlen hw hneg
  cases H.reacts i hlen hwl with
  | satisfied hk _ => exact .inl (hlog hk)
  | queued _ _ hrest =>
    refine .inr fun z hz => ?_
    obtain ⟨hz, hother⟩ := hrest z hz
    rw [H.other, hg.upTo_eq_trail (Nat.le_refl k), H.maintains.trail]
    refine hother.imp_right fun hzo => ?_
    rw [isOpen, hz] at hzo
    exact (ht.isTrue (-z)).mp (by simpa using hzo)
  | moved _ _ hyo _ hy =>
    rw [hw, Option.some.injEq] at hy
    rw [← hy, hneg] at hyo
    cases hyo

end Updated

/-! ### Clauses with something to do -/

theorem Placed.exists_watched (hp : Placed f) (hlen : 1 < (f.body i).length) (w : Watch) :
    ∃ x ∈ f.body i, f.watched w i = some x :=
  ⟨_, List.getElem_mem (hp.lt i w hlen), List.getElem?_eq_getElem (hp.lt i w hlen)⟩

theorem Placed.watched_ne (hp : Placed f) (hlen : 1 < (f.body i).length)
    (hx : f.watched w i = some x) (hy : f.watched w.other i = some y) : x ≠ y := by
  rintro rfl
  exact hp.ne i w hlen ((List.getElem?_inj (hp.lt i w hlen) (hp.nodup i)).mp (hx.trans hy.symm))

/-- A clause without a true literal that watches a false one has nothing else to watch. -/
theorem Attends.falsified (H : f.Attends f.timeline) (hl : Logged f) (ht : Timely f c)
    (hlen : 1 < (f.body i).length) (hs : ¬Trail.Satisfies f.trail (f.body i))
    (hx : f.watched w i = some x) (hneg : -x ∈ f.trail) :
    ∀ z ∈ f.body i, f.watched w.other i = some z ∨ -z ∈ f.trail := by
  rw [← literals_timeline, Timeline.mem_literals] at hneg
  obtain ⟨a, ha⟩ := hneg
  have hheeds := (H _ ha w i hlen).2 (by rw [BoundedLiteral.neg_neg, hx])
  rcases hheeds with ⟨s, _, hlog⟩ | hrest
  · refine absurd (ht.satisfies_of_known hl ?_) hs
    exact (hl.known i).mpr (List.mem_map.mpr ⟨(i, s), hlog, rfl⟩)
  · exact fun z hz => (hrest z hz).imp_right fun hmem =>
      literals_timeline (f := f) ▸ Timeline.upTo_subset hmem

/-- A clause that watches the falsified literal is queued, unless it is settled or its other watch
should have been queued before. -/
theorem Updated.queued (H : Updated w l k f g) (hp : Placed f) (ht : Timely f k)
    (htrue : l ∈ f.trail) (hlen : 1 < (f.body i).length) (hw : f.watched w i = some (-l))
    (hns : ¬Trail.Settles f.trail (f.body i))
    (hother : ∀ y, f.watched w.other i = some y → y ≠ -l → -y ∈ f.trail →
      ∀ z ∈ f.body i, z = -l ∨ -z ∈ f.trail) : g.Queued i := by
  cases H.reacts i hlen hw with
  | satisfied hk _ =>
    have hsat := (ht.maintains H.maintains).satisfies_of_known H.logged hk
    rw [H.maintains.trail, H.maintains.body] at hsat
    exact absurd (.inl hsat) hns
  | queued hq _ _ => exact hq
  | @moved z _ hz hzo hne _ =>
    rw [ht.isOpen_iff] at hzo
    obtain ⟨y, hy, hyw⟩ := hp.exists_watched hlen w.other
    have hyl : y ≠ -l := (hp.watched_ne hlen hw hyw).symm
    have hyz : y ≠ z := fun h => hne (h ▸ hyw)
    have hyneg : -y ∈ f.trail := by
      by_contra hyneg
      refine hns (.inr ⟨y, hy, z, hz, hyz, ⟨fun hytrue => ?_, hyneg⟩, hzo⟩)
      exact hns (.inl ⟨y, hy, hytrue⟩)
    rcases hother y hyw hyl hyneg z hz with rfl | hzneg
    · exact absurd (by rwa [BoundedLiteral.neg_neg]) hzo.2
    · exact absurd hzneg hzo.2

/-! ### Making a literal true -/

theorem assign_eq (f : Watched n m) (l : BoundedLiteral n) (k : Level) : f.assign l k =
    if ((f.fix l k).updateWatches .first l k).isUnsatisfiable
    then (f.fix l k).updateWatches .first l k
    else ((f.fix l k).updateWatches .first l k).updateWatches .second l k := rfl

theorem Placed.fix (hp : Placed f) : Placed (f.fix l k) :=
  hp.congr (fun _ => rfl) (fun _ _ => rfl) fun _ _ => rfl

theorem Logged.fix (hl : Logged f) : Logged (f.fix l k) :=
  hl.congr (fun _ => .rfl) (fun _ => .rfl) rfl rfl

/-- Making a literal true keeps the books in every state. -/
theorem maintains_assign (hp : Placed f) (hl : Logged f) :
    Maintains (-l) k (f.fix l k) (f.assign l k) ∧ Placed (f.assign l k) ∧ Logged (f.assign l k) := by
  have htrue : (f.fix l k).isTrue l = true := isTrue_fix.mpr (.inl rfl)
  have U₁ := updateWatches_spec (w := .first) (k := k) hp.fix hl.fix htrue
  rw [assign_eq]
  generalize (f.fix l k).updateWatches .first l k = g at U₁ ⊢
  split
  · exact ⟨U₁.maintains, U₁.placed, U₁.logged⟩
  · have htrue₂ : g.isTrue l = true := U₁.maintains.isTrue ▸ htrue
    have U₂ := updateWatches_spec (w := .second) (k := k) U₁.placed U₁.logged htrue₂
    exact ⟨U₁.maintains.trans U₂.maintains, U₂.placed, U₂.logged⟩

/-- A clause may be marked once a literal of its own was made true. -/
theorem maintains_markSatisfied_assign (hp : Placed f) (hl : Logged f) (hi : l ∈ f.body i) :
    Maintains x k (f.assign l k) ((f.assign l k).markSatisfied i k) := by
  obtain ⟨hm, -, -⟩ := maintains_assign (k := k) (l := l) hp hl
  refine .markSatisfied ⟨l, ?_, ?_⟩
  · rw [hm.body]
    exact hi
  · rw [hm.isTrue]
    exact isTrue_fix.mpr (.inl rfl)

namespace Attends

variable (H : f.Attends f.timeline) (hp : Placed f) (hl : Logged f) (ht : Timely f c)
  (hlen : 1 < (f.body i).length) (hns : ¬Trail.Settles (l :: f.trail) (f.body i))

include H hl ht hlen hns

/-- A watch that was false before `l` was made true leaves only the other one. -/
theorem falsified_of_cons (hx : f.watched w i = some x) (hxl : x ≠ -l) (hneg : -x ∈ l :: f.trail) :
    ∀ z ∈ f.body i, f.watched w.other i = some z ∨ -z ∈ f.trail := by
  have hs : ¬Trail.Satisfies f.trail (f.body i) := fun hs =>
    hns (.inl (hs.mono (List.subset_cons_self _ _)))
  refine H.falsified hl ht hlen hs hx ((List.mem_cons.mp hneg).resolve_left fun h => hxl ?_)
  rw [← h, BoundedLiteral.neg_neg]

include hp

/-- A literal that `l` falsifies is watched: else both watches would be open, or one of them would
have left only the other. -/
theorem watched_neg (ho : Trail.Open f.trail l) (hmem : -l ∈ f.body i) :
    ∃ w, f.watched w i = some (-l) := by
  by_contra hnot
  have hne (w) : f.watched w i ≠ some (-l) := fun hw => hnot ⟨w, hw⟩
  have hopen (w x) (hx : f.watched w i = some x) : Trail.Open (l :: f.trail) x := by
    refine ⟨fun hxtrue => hns (.inl ⟨x, List.mem_of_getElem? hx, hxtrue⟩), fun hneg => ?_⟩
    have hxl : x ≠ -l := fun hxl => hne w (hxl ▸ hx)
    rcases H.falsified_of_cons hl ht hlen hns hx hxl hneg (-l) hmem with hz | hz
    · exact hne w.other hz
    · exact ho.1 (by rwa [BoundedLiteral.neg_neg] at hz)
  obtain ⟨x, hx, hxw⟩ := hp.exists_watched hlen .first
  obtain ⟨y, hy, hyw⟩ := hp.exists_watched hlen .second
  exact hns (.inr ⟨x, hx, y, hy, hp.watched_ne hlen hxw hyw, hopen .first x hxw, hopen .second y hyw⟩)

/-- Once both watches were told of `l`, the clause is queued. -/
theorem queued (ho : Trail.Open f.trail l) (hmem : -l ∈ f.body i) (ht₁ : Timely (f.fix l k) k)
    (U₁ : Updated .first l k (f.fix l k) g) (U₂ : Updated .second l k g h) : h.Queued i := by
  obtain ⟨w, hw⟩ := H.watched_neg hp hl ht hlen hns ho hmem
  have hrest (u y) (hy : f.watched u i = some y) (hyl : y ≠ -l) (hneg : -y ∈ l :: f.trail)
      (hu : f.watched u.other i = some (-l)) : ∀ z ∈ f.body i, z = -l ∨ -z ∈ l :: f.trail := by
    intro z hz
    rcases H.falsified_of_cons hl ht hlen hns hy hyl hneg z hz with hz | hz
    · exact .inl (Option.some.inj (hz.symm.trans hu))
    · exact .inr (List.mem_cons_of_mem _ hz)
  cases w with
  | first =>
    exact U₂.maintains.queued U₁.logged U₂.logged <|
      U₁.queued hp.fix ht₁ List.mem_cons_self hlen hw hns fun y hy hyl hneg =>
        hrest .second y hy hyl hneg hw
  | second =>
    have hsame (y) (hy : g.watched .first i = some y) : f.watched .first i = some y :=
      (U₁.same i fun hw₁ => hp.watched_ne hlen hw₁ hw rfl).symm.trans hy
    refine U₂.queued U₁.placed (ht₁.maintains U₁.maintains) (U₁.maintains.trail ▸ List.mem_cons_self)
      (U₁.maintains.body i ▸ hlen) ((U₁.other i).trans hw) ?_ fun y hy hyl hneg z hz => ?_
    · rw [U₁.maintains.trail, U₁.maintains.body]
      exact hns
    · rw [U₁.maintains.trail] at hneg ⊢
      rw [U₁.maintains.body] at hz
      exact hrest .first y (hsame y hy) hyl hneg hw z hz

end Attends

/-- The literal `l` was made true at level `k`, and the clauses told. -/
structure Assigned (l : BoundedLiteral n) (k : Level) (f g : Watched n m) : Prop where
  maintains : Maintains (-l) k (f.fix l k) g
  placed : Placed g
  logged : Logged g
  timely : Timely g k
  heeds : ∀ e ∈ f.timeline, ∀ u, f.Heeds u e → g.Heeds u e
  heeds_self : f.isUnsatisfiable = false → ∀ u, g.Heeds u (k, l)
  queued : f.isUnsatisfiable = false → f.Attends f.timeline → ∀ i, 1 < (f.body i).length →
    -l ∈ f.body i → ¬Trail.Settles (l :: f.trail) (f.body i) → g.Queued i

theorem assign_spec (hp : Placed f) (hl : Logged f) (ht : Timely f c) (hck : c ≤ k)
    (ho : Trail.Open f.trail l) : Assigned l k f (f.assign l k) := by
  have htimeline := timeline_fix (f := f) (k := k) ho.1
  have ht₁ := ht.fix hck ho
  have hself : (k, l) ∈ (f.fix l k).timeline := htimeline ▸ List.mem_cons_self
  have hp₁ : Placed (f.fix l k) := hp.fix
  have hl₁ : Logged (f.fix l k) := hl.fix
  have htrue : (f.fix l k).isTrue l = true := isTrue_fix.mpr (.inl rfl)
  have U₁ := updateWatches_spec (w := .first) (k := k) hp₁ hl₁ htrue
  rw [assign_eq]
  generalize (f.fix l k).updateWatches .first l k = g at U₁ ⊢
  have ht₂ := ht₁.maintains U₁.maintains
  have hunsat : g.isUnsatisfiable = f.isUnsatisfiable := by
    rw [isUnsatisfiable, U₁.maintains.hasEmptyClause, U₁.maintains.conflict]
    rfl
  have hheeds₁ (e) (he : e ∈ f.timeline) (u) (hu : f.Heeds u e) : g.Heeds u e :=
    U₁.heeds ht₁ hself (htimeline ▸ List.mem_cons_of_mem _ he) (hu.fix ho.1)
  split
  · rename_i hu
    rw [hunsat] at hu
    refine ⟨U₁.maintains, U₁.placed, U₁.logged, ht₂, hheeds₁, ?_, ?_⟩ <;> simp [hu]
  · have htrue₂ : g.isTrue l = true := U₁.maintains.isTrue ▸ htrue
    have U₂ := updateWatches_spec (w := .second) (k := k) U₁.placed U₁.logged htrue₂
    generalize g.updateWatches .second l k = h at U₂ ⊢
    have hself₂ : (k, l) ∈ g.timeline := U₁.maintains.timeline ▸ hself
    refine ⟨U₁.maintains.trans U₂.maintains, U₂.placed, U₂.logged, ht₂.maintains U₂.maintains,
      fun e he u hu => ?_, fun _ u => ?_, ?_⟩
    · have he₂ : e ∈ g.timeline := U₁.maintains.timeline ▸ htimeline ▸ List.mem_cons_of_mem _ he
      exact U₂.heeds ht₂ hself₂ he₂ (hheeds₁ e he u hu)
    · cases u with
      | first => exact U₂.heeds ht₂ hself₂ hself₂ (U₁.heeds_self ht₁ hself)
      | second => exact U₂.heeds_self ht₂ hself₂
    · exact fun _ hatt i hlen hmem hns => hatt.queued hp hl ht hlen hns ho hmem ht₁ U₁ U₂

end Watched

end Dpll
