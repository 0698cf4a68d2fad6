import Dpll.Proofs.Plain.Sessions
import Dpll.Proofs.Solver
import Dpll.Proofs.Sources

/-! No index is out of bounds. Formulas are in range from every source, and what is checked against a
table is refused exactly if it is not (`Cnf.ofTable?_eq_ok_iff_inRange`,
`Cnf.firstUnknown?_eq_some_iff`). A formula in range can be brought into either representation over
plain tables, and no look-up fails in any session, in any search, or when the literals that are true
become an assignment (`Cnf.in_bounds`). -/

namespace Dpll

open Backtrackable

/-! ### The check of a clause list -/

namespace Cnf

variable {table : VariableTable} {clauses : List Clause} {e : UnknownVariable} {f : Cnf}

theorem firstUnknown?_eq_none_iff :
    firstUnknown? table clauses = none ↔ InRange ⟨table, clauses⟩ := by
  refine ⟨inRange_of_firstUnknown?, fun h => ?_⟩
  rw [firstUnknown?, List.findSome?_eq_none_iff]
  rintro ⟨c, i⟩ hc
  rw [Option.map_eq_none_iff, List.find?_eq_none]
  intro l hl
  have hlt : l.var.toNat < table.size := h c (List.fst_mem_of_mem_zipIdx hc) l hl
  simpa [VariableTable.contains] using hlt

/-- The report names the first clause with a literal out of range, and the first one in it. -/
theorem firstUnknown?_eq_some_iff : firstUnknown? table clauses = some e ↔
    ∃ before ls l rs after, clauses = before ++ (ls ++ l :: rs) :: after ∧
      InRange ⟨table, before⟩ ∧ (∀ x ∈ ls, x.var.toNat < table.size) ∧
      table.size ≤ l.var.toNat ∧ e = ⟨before.length, l.var, table.size⟩ := by
  rw [firstUnknown?, List.findSome?_eq_some_iff]
  constructor
  · rintro ⟨before, ⟨c, i⟩, after, hsplit, hc, hbefore⟩
    obtain ⟨cs, rest, rfl, rfl, hrest⟩ := List.zipIdx_eq_append_iff.mp hsplit
    obtain ⟨c, cs', rfl, hi, -⟩ := List.zipIdx_eq_cons_iff.mp hrest.symm
    obtain ⟨rfl, rfl⟩ := Prod.mk.inj hi
    obtain ⟨l, hl, rfl⟩ := Option.map_eq_some_iff.mp hc
    obtain ⟨hout, ls, rs, rfl, hls⟩ := List.find?_eq_some_iff_append.mp hl
    refine ⟨cs, ls, l, rs, cs', rfl, inRange_of_firstUnknown? ?_, fun x hx => ?_, ?_, by simp⟩
    · exact List.findSome?_eq_none_iff.mpr hbefore
    · simpa [VariableTable.contains] using hls x hx
    · simpa [VariableTable.contains] using hout
  · rintro ⟨before, ls, l, rs, after, rfl, hbefore, hls, hl, rfl⟩
    refine ⟨before.zipIdx, (ls ++ l :: rs, before.length), after.zipIdx (before.length + 1), ?_, ?_, ?_⟩
    · rw [List.zipIdx_append, List.zipIdx_cons, Nat.zero_add]
    · have hfind : (ls ++ l :: rs).find? (fun l => !table.contains l.var) = some l := by
        refine List.find?_eq_some_iff_append.mpr ⟨?_, ls, rs, rfl, fun x hx => ?_⟩
        · simpa [VariableTable.contains] using hl
        · simpa [VariableTable.contains] using hls x hx
      exact congrArg (Option.map _) hfind
    · exact List.findSome?_eq_none_iff.mp (firstUnknown?_eq_none_iff.mpr hbefore)

theorem ofTable?_eq_ok_iff_inRange :
    ofTable? table clauses = .ok f ↔ f = ⟨table, clauses⟩ ∧ f.InRange := by
  rw [ofTable?_eq_ok_iff, firstUnknown?_eq_none_iff, and_comm]
  refine and_congr_right fun hf => ?_
  rw [hf]

theorem ofTable?_eq_error_iff :
    ofTable? table clauses = .error e ↔ firstUnknown? table clauses = some e := by
  rw [ofTable?]
  cases firstUnknown? table clauses <;> simp

end Cnf

/-! ### Sessions and searches -/

namespace Cnf

variable {f : Cnf} {cs : List (List (BoundedLiteral f.numVars))} {m : Nat} {r : Representation}

/-- No look-up fails when the operations are made over the plain tables of a formula, nor when then
the live clauses are listed and the literals that are true become an assignment. What comes out is
what the formula `t` has. -/
def Withstands (f : Cnf) (r : Representation) (ops : List Plain.Operation)
    (t : Tracked f.numVars m) : Prop :=
  ∃ g, Plain.Tracked.run? r f.numVars f.clauses ops = some g ∧ t.Shows g ∧
    g.liveClauses? = some ((liveClauses t).map (List.map (·.toLiteral))) ∧
    g.assignment = (assignment t).map (·.toLiteral) ∧
    ∃ a, Assignment.ofLiterals? f.numVars g.assignment = some a

theorem withstands (hcs : f.bounded? = some cs) {ops : List Plain.Operation}
    (hops : ∀ op ∈ ops, op.InRange f.numVars) :
    f.Withstands r ops (Moves.after (Tracked.ofClauses r cs) (Moves.ofOperations f.numVars ops)) := by
  obtain ⟨g, hg, h⟩ := Tracked.exists_run? r cs hops
  have hassignment := h.assignment (.after r _)
  obtain ⟨a, ha⟩ := Assignment.exists_ofLiterals?_eq
    (assignment (Moves.after (Tracked.ofClauses r cs) (Moves.ofOperations f.numVars ops)))
  rw [bounded?_eq_some_iff.mp hcs] at hg
  exact ⟨g, hg, h, h.liveClauses?, hassignment, a, hassignment ▸ ha⟩

/-- The calls of a search are a session. -/
theorem withstands_of_reaches {η : Type} [DecisionSource η (Tracked f.numVars cs.length)
    (BoundedLiteral f.numVars)] (hcs : f.bounded? = some cs) {h : η}
    {j : Journal (Call (BoundedLiteral f.numVars))}
    {t : Search (Tracked f.numVars cs.length) η (BoundedLiteral f.numVars)}
    (ht : (Search.start (Tracked.ofClauses r cs) h j).Reaches t) :
    ∃ calls : List (Call (BoundedLiteral f.numVars)), t.journal = calls.foldl Journal.note j ∧
      f.Withstands r (calls.filterMap Call.operation?) t.formula := by
  obtain ⟨calls, hjournal, hformula⟩ := Search.exists_calls_of_reaches ht
  refine ⟨calls, hjournal, ?_⟩
  rw [hformula]
  exact withstands hcs fun _ => Call.inRange_of_mem

/-- Solving comes to an end, and what it has asked of the formula is a session. -/
theorem exists_withstands_solve? (hcs : f.bounded? = some cs) (r : Representation) (h : Heuristic)
    (recorded : Bool) : ∃ s, f.solve? r h recorded = some s ∧
      ∃ calls : List (Call (BoundedLiteral f.numVars)),
        (recorded = true → s.finished.calls = calls) ∧
        f.Withstands r (calls.filterMap Call.operation?) s.formula := by
  let j : Journal (Call (BoundedLiteral f.numVars)) := if recorded then .blank else .closed
  obtain ⟨t, ht, -⟩ := Tracked.search (Tracked.pending_ofClauses r cs) h j
  obtain ⟨s, hrun, hs⟩ := Option.bind_eq_some_iff.mp ht
  obtain ⟨answer, -, rfl⟩ := Option.map_eq_some_iff.mp hs
  obtain ⟨calls, hjournal, hwithstands⟩ := withstands_of_reaches hcs (Search.ends_of_run hrun).1
  refine ⟨⟨cs.length, Tracked.ofClauses r cs, ⟨answer, s.formula, s.heuristic, s.journal.entries⟩⟩, ?_,
    calls, fun hrecorded => ?_, hwithstands⟩
  · rw [solve?, hcs, Option.bind_eq_bind, Option.bind_some]
    exact congrArg (Option.bind · _) ht
  · have hj : j = .blank := if_pos hrecorded
    change s.journal.entries = calls
    rw [hjournal, hj, Parties.entries_foldl_note]

/-- From every source a formula is in range, and clauses are refused by the check exactly if they are
not; the report names the first literal out of range. For a formula in range no look-up fails in either
representation: not in a session of literals of its variables, in any order and on any levels; not in a
search, whoever makes the decisions; not when the scores of literals are compared; and not when the
literals that are true become an assignment. Solving comes to an end. -/
theorem in_bounds :
    (∀ bytes d, DimacsDocument.read bytes = .ok d → d.toCnf.InRange) ∧
    (∀ clauses, (ofNumbers clauses).InRange) ∧
    (∀ text tree e, NnfTree.read text = .ok tree → (tree.toClauses e).cnf.numVars ≤ 2 ^ 31 →
      (tree.toClauses e).cnf.InRange) ∧
    (∀ table clauses,
      (∀ f, ofTable? table clauses = .ok f ↔ f = ⟨table, clauses⟩ ∧ f.InRange) ∧
      ∀ e, ofTable? table clauses = .error e ↔
        ∃ before ls l rs after, clauses = before ++ (ls ++ l :: rs) :: after ∧
          InRange ⟨table, before⟩ ∧ (∀ x ∈ ls, x.var.toNat < table.size) ∧
          table.size ≤ l.var.toNat ∧ e = ⟨before.length, l.var, table.size⟩) ∧
    ∀ f : Cnf, f.InRange → ∀ r, ∃ cs, f.bounded? = some cs ∧
      (∀ ops, (∀ op ∈ ops, Plain.Operation.InRange f.numVars op) → f.Withstands r ops
        (Moves.after (Tracked.ofClauses r cs) (Moves.ofOperations f.numVars ops))) ∧
      (∀ (η : Type) [DecisionSource η (Tracked f.numVars cs.length) (BoundedLiteral f.numVars)] (h : η)
        j t, (Search.start (Tracked.ofClauses r cs) h j).Reaches t →
          ∃ calls : List (Call _), t.journal = calls.foldl Journal.note j ∧
            f.Withstands r (calls.filterMap Call.operation?) t.formula) ∧
      (∀ live : List (List (BoundedLiteral f.numVars)), (Scores.ofClauses live).Sound) ∧
      ∀ h recorded, ∃ s, f.solve? r h recorded = some s ∧
        ∃ calls : List (Call _), (recorded = true → s.finished.calls = calls) ∧
          f.Withstands r (calls.filterMap Call.operation?) s.formula := by
  refine ⟨fun _ _ => DimacsDocument.inRange_toCnf, inRange_ofNumbers,
    fun _ _ e h _ => (Sourced.toClauses h e).inRange,
    fun table clauses => ⟨fun _ => ofTable?_eq_ok_iff_inRange, fun _ => ?_⟩, fun f hf r => ?_⟩
  · exact ofTable?_eq_error_iff.trans firstUnknown?_eq_some_iff
  · obtain ⟨cs, hcs⟩ := exists_bounded? hf
    exact ⟨cs, hcs, fun _ => withstands hcs, fun _ _ _ _ _ => withstands_of_reaches hcs,
      Scores.sound_ofClauses, exists_withstands_solve? hcs r⟩

/-- The first of two variables made false at level 3 and true at level 1; one clause too many. -/
theorem in_bounds_two_clauses :
    let f := ofNumbers [[1, 2], [-1, 2]]
    let ops : List Plain.Operation :=
      [.assign ⟨1⟩ 3, .assign ⟨0⟩ 1, .unitPropagate 2, .liveClauses, .backtrack 0]
    f.InRange ∧ (∀ op ∈ ops, op.InRange f.numVars) ∧
      ofTable? f.table ([[⟨0⟩], [⟨1⟩, ⟨5⟩]]) = .error ⟨1, ⟨2⟩, 2⟩ ∧
      ∀ r, ∃ cs, f.bounded? = some cs ∧ f.Withstands r ops
        (Moves.after (Tracked.ofClauses r cs) (Moves.ofOperations f.numVars ops)) := by
  intro f ops
  obtain ⟨-, hnumbers, -, htable, hin⟩ := in_bounds
  have hops : ∀ op ∈ ops, op.InRange f.numVars := by decide
  refine ⟨hnumbers _, hops, ?_, fun r => ?_⟩
  · refine ((htable f.table [[⟨0⟩], [⟨1⟩, ⟨5⟩]]).2 ⟨1, ⟨2⟩, 2⟩).mpr
      ⟨[[⟨0⟩]], [⟨1⟩], ⟨5⟩, [], [], rfl, ?_, ?_, ?_, rfl⟩
    · unfold InRange
      decide
    · decide
    · decide
  · obtain ⟨cs, hcs, hsession, -⟩ := hin f (hnumbers _) r
    exact ⟨cs, hcs, hsession ops hops⟩

end Cnf

end Dpll
