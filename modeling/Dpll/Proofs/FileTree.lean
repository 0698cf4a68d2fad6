import Dpll.FileTree
import Dpll.Proofs.Path

/-! Files that were put into a tree are found again. What is put at a location that is no directory is
not on the way to any path, so it leaves the ways as they were (`FileTree.locate_put`). The path of a
name inside a directory leads to what the directory has by that name (`FileTree.locate_join`). -/

namespace Dpll.FileTree

variable {t : FileTree} {k l : Location} {node : FileNode} {here : Location} {p : Path} {name : String}
  {bytes : List UInt8}

private theorem lookup_filter_ne (nodes : List (Location × FileNode)) (k l : Location) :
    (nodes.filter (fun (m, _) => m != l)).lookup k = if l = k then none else nodes.lookup k := by
  induction nodes with
  | nil => simp
  | cons entry nodes ih =>
    obtain ⟨m, node⟩ := entry
    by_cases hm : m = l
    · subst hm
      rw [List.filter_cons_of_neg (by simp), ih, List.lookup_cons]
      by_cases hk : m = k
      · simp [hk]
      · simp [hk, beq_eq_false_iff_ne.mpr (Ne.symm hk)]
    · rw [List.filter_cons_of_pos (by simpa using hm), List.lookup_cons, List.lookup_cons, ih]
      by_cases hk : k = m
      · simp [hk, Ne.symm hm]
      · simp [beq_eq_false_iff_ne.mpr hk]

theorem lookup_put (t : FileTree) (k l : Location) (node : FileNode) :
    (t.put l node).nodes.lookup k = if l = k then some node else t.nodes.lookup k := by
  rw [put, List.lookup_append, lookup_filter_ne]
  by_cases h : l = k
  · simp [h]
  · simp [h, List.lookup_cons, beq_eq_false_iff_ne.mpr (Ne.symm h)]

theorem put_put (t : FileTree) (l : Location) (node node' : FileNode) :
    (t.put l node).put l node' = t.put l node' := by
  simp [put, List.filter_append]

@[simp]
theorem node?_put_self : (t.put l node).node? l = some node := by
  rw [node?, lookup_put, if_pos rfl]

/-- What lies below a location still does when something is put anywhere. -/
theorem any_isPrefixOf_put (h : t.nodes.any (fun (m, _) => k.isPrefixOf m) = true) :
    (t.put l node).nodes.any (fun (m, _) => k.isPrefixOf m) = true := by
  obtain ⟨⟨m, found⟩, hmem, hprefix⟩ := List.any_eq_true.mp h
  apply List.any_eq_true.mpr
  by_cases hm : m = l
  · exact ⟨(l, node), List.mem_append_right _ (List.mem_singleton_self _), hm ▸ hprefix⟩
  · refine ⟨(m, found), List.mem_append_left _ (List.mem_filter.mpr ⟨hmem, ?_⟩), hprefix⟩
    simpa using hm

/-- Directories stay when something is put at another place. -/
theorem node?_put_of_directory (hk : t.node? k = some .directory)
    (hl : t.node? l ≠ some .directory) : (t.put l node).node? k = some .directory := by
  have hne : l ≠ k := fun h => hl (h ▸ hk)
  unfold node? at hk ⊢
  rw [lookup_put, if_neg hne]
  cases hlookup : t.nodes.lookup k with
  | some found =>
    rw [hlookup] at hk
    exact hk
  | none =>
    rw [hlookup] at hk
    dsimp only at hk ⊢
    split at hk
    · rename_i hbelow
      rw [Bool.or_eq_true_iff] at hbelow
      exact if_pos (Bool.or_eq_true_iff.mpr (hbelow.imp_right any_isPrefixOf_put))
    · cases hk

theorem step_put {piece : String} (hl : t.node? l ≠ some .directory) {k' : Location}
    (h : t.step k piece = .ok k') : (t.put l node).step k piece = .ok k' := by
  unfold step at h ⊢
  split at h
  · cases h
  · rename_i hk
    rw [node?_put_of_directory hk hl]
    exact h
  · cases h

theorem foldlM_step_put (hl : t.node? l ≠ some .directory) {k' : Location} {pieces : List String}
    (h : pieces.foldlM t.step k = .ok k') : pieces.foldlM (t.put l node).step k = .ok k' := by
  induction pieces generalizing k with
  | nil => exact h
  | cons piece pieces ih =>
    rw [List.foldlM_cons] at h ⊢
    cases hstep : t.step k piece with
    | error fault =>
      rw [hstep] at h
      cases h
    | ok m =>
      rw [hstep] at h
      rw [step_put hl hstep]
      exact ih h

theorem locate_put (node : FileNode) (hl : t.node? l ≠ some .directory) (h : t.locate here p = .ok k) :
    (t.put l node).locate here p = .ok k := by
  unfold locate follow at h ⊢
  split at h
  · cases h
  · rename_i hlong
    rw [if_neg hlong]
    exact foldlM_step_put hl h

theorem find_eq_ok_iff :
    t.find here p = .ok (l, node) ↔ t.locate here p = .ok l ∧ t.node? l = some node := by
  unfold find
  cases t.locate here p with
  | error fault => simp
  | ok k =>
    dsimp only
    by_cases hk : k = l
    · subst hk
      cases t.node? k <;> simp
    · cases t.node? k <;> simp [hk]

theorem find_put (node : FileNode) (hl : t.node? l ≠ some .directory) (h : t.locate here p = .ok l) :
    (t.put l node).find here p = .ok (l, node) := by
  rw [find, locate_put node hl h]
  simp

/-- A file is created at the end of its path, where there is no directory. -/
theorem locate_of_target (h : t.target here p = .ok l) :
    t.locate here p = .ok l ∧ t.node? l ≠ some .directory := by
  unfold target at h
  dsimp only at h
  split at h
  · split at h
    · cases h
    · rename_i k hk
      split at h
      · cases h
      · rename_i hdir
        obtain rfl := Except.ok.inj h
        exact ⟨hk, hdir⟩
  · split at h <;> cases h

/-! ### Inside a directory -/

/-- An empty piece stays where it is. -/
theorem eq_of_step_empty (h : t.step l "" = .ok k) : k = l := by
  unfold step at h
  split at h
  · cases h
  · rw [if_pos (by rfl)] at h
    exact (Except.ok.inj h).symm
  · cases h

theorem eq_of_step_name (hname : Path.IsName name) (h : t.step l name = .ok k) : k = l ++ [name] := by
  unfold step at h
  rw [hname.leaves, if_neg Bool.false_ne_true, if_neg hname.ne_above] at h
  split at h
  · cases h
  · split at h
    · cases h
    · exact (Except.ok.inj h).symm
  · cases h

theorem foldlM_step_concat {pieces : List String} {piece : String}
    (h : (pieces ++ [piece]).foldlM t.step l = .ok k) :
    ∃ m, pieces.foldlM t.step l = .ok m ∧ t.step m piece = .ok k := by
  rw [List.foldlM_append] at h
  cases hpieces : pieces.foldlM t.step l with
  | error fault =>
    rw [hpieces] at h
    cases h
  | ok m =>
    rw [hpieces] at h
    cases hpiece : t.step m piece with
    | error fault => simp [bind, Except.bind, hpiece] at h
    | ok k' =>
      obtain rfl : k' = k := by simpa [bind, Except.bind, pure, Except.pure, hpiece] using h
      exact ⟨m, rfl, hpiece⟩

/-- If the path of a name inside a directory leads anywhere, then to the name there. -/
theorem locate_join (hp : p.text ≠ "") (hname : Path.IsName name) (hl : t.locate here p = .ok l)
    (hk : t.locate here (p.join name) = .ok k) : k = l ++ [name] := by
  obtain ⟨before, hjoin, hpieces⟩ := p.pieces_join hname.slash_notMem
  unfold locate follow at hl hk
  split at hl
  · cases hl
  split at hk
  · cases hk
  rw [Path.isAbsolute_join hp, hjoin] at hk
  obtain ⟨m, hm, hstep⟩ := foldlM_step_concat hk
  obtain rfl : m = l := by
    rcases hpieces with hpieces | hpieces
    · rw [hpieces] at hl
      exact Except.ok.inj (hm.symm.trans hl)
    · rw [hpieces] at hl
      obtain ⟨m', hm', hstay⟩ := foldlM_step_concat hl
      obtain rfl := Except.ok.inj (hm.symm.trans hm')
      exact (eq_of_step_empty hstay).symm
  exact eq_of_step_name hname hstep

theorem node?_eq_file_iff :
    t.node? l = some (.file bytes) ↔ t.nodes.lookup l = some (.file bytes) := by
  unfold node?
  cases t.nodes.lookup l with
  | some found => rfl
  | none =>
    dsimp only
    split <;> simp

/-- The other files stay as they are. -/
theorem node?_put_eq_file_iff (h : k ≠ l) :
    (t.put k node).node? l = some (.file bytes) ↔ t.node? l = some (.file bytes) := by
  rw [node?_eq_file_iff, node?_eq_file_iff, lookup_put, if_neg h]

/-- The other files are found where they were. -/
theorem find_put_of_file (node : FileNode) (hl : t.node? l ≠ some .directory) (hne : l ≠ k)
    (h : t.find here p = .ok (k, .file bytes)) : (t.put l node).find here p = .ok (k, .file bytes) := by
  obtain ⟨hlocate, hnode⟩ := find_eq_ok_iff.mp h
  exact find_eq_ok_iff.mpr ⟨locate_put node hl hlocate, (node?_put_eq_file_iff hne).mpr hnode⟩

end Dpll.FileTree
