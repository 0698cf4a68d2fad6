/-! An optional record of what happened. A journal that is not kept costs nothing, and keeping
it changes nothing else. -/

namespace Dpll

/-- The entries noted so far, newest first, or `none` when no journal is kept. -/
structure Journal (α : Type u) where
  pages : Option (List α)

namespace Journal

variable {α : Type u}

/-- No journal is kept. -/
def closed : Journal α := ⟨none⟩

/-- A journal without entries. -/
def blank : Journal α := ⟨some []⟩

/-- Notes an entry, if the journal is kept. -/
def note (j : Journal α) (entry : α) : Journal α := ⟨j.pages.map (entry :: ·)⟩

/-- The entries, oldest first. -/
def entries (j : Journal α) : List α := (j.pages.getD []).reverse

end Journal

end Dpll
