import Mixfix.Proofs.Automaton.Collection
import Mixfix.Table

/-!
# Rows of a table

The rows of a table are the states of the automaton of its grammar, each with its plan.

* `Table.getElem?_rows`, `Table.eq_of_getElem?_rows`: the rows by number.
* `Table.plan?_ofGrammar`, `Table.goto?_ofGrammar`: the plan and the transitions of a row.
* `Table.mem_statesWhere`: the numbers of the rows with a property.
-/

namespace Mixfix

namespace Table

theorem getElem?_rows (g : Grammar) (i : Nat) : (ofGrammar g).rows[i]? =
    ((Automaton.ofGrammar g)[i]?).map fun s =>
      { s with plan := (Automaton.ofGrammar g).planOf g i } := by
  rw [ofGrammar, ofPlans, List.getElem?_zipWith, Automaton.plans, List.getElem?_map]
  by_cases hi : i < (Automaton.ofGrammar g).length
  · rw [List.getElem?_range hi, List.getElem?_eq_getElem hi]
    rfl
  · rw [List.getElem?_eq_none (Nat.le_of_not_lt hi)]
    rfl

/-- A row is a state with its plan. -/
theorem eq_of_getElem?_rows {g : Grammar} {i : Nat} {row : TableRow}
    (h : (ofGrammar g).rows[i]? = some row) : (Automaton.ofGrammar g)[i]? = some row.toState ∧
      row.plan = (Automaton.ofGrammar g).planOf g i := by
  rw [getElem?_rows, Option.map_eq_some_iff] at h
  obtain ⟨s, hs, rfl⟩ := h
  exact ⟨hs, rfl⟩

theorem plan?_ofGrammar {g : Grammar} {i : Nat} {plan : Plan} :
    (ofGrammar g).plan? i = some plan ↔ ∃ s, (Automaton.ofGrammar g)[i]? = some s ∧
      plan = (Automaton.ofGrammar g).planOf g i := by
  rw [plan?, getElem?_rows]
  cases (Automaton.ofGrammar g)[i]? with
  | none => simp
  | some s => simp [eq_comm]

theorem goto?_ofGrammar {g : Grammar} (hg : g.WellFormed) {i j : Nat} {X : Handle}
    (hX : X.isNonTerminal) : (ofGrammar g).goto? i X = some j ↔
      ∃ s, (Automaton.ofGrammar g)[i]? = some s ∧ (X, j) ∈ s.edges := by
  rw [goto?, getElem?_rows]
  cases hs : (Automaton.ofGrammar g)[i]? with
  | none => simp
  | some s =>
    have hmem := List.mem_of_getElem? hs
    have hkeys : ((s.edges.filter (·.1.isNonTerminal)).map (·.1)).Nodup := by
      refine List.Nodup.sublist (List.filter_sublist.map _) ?_
      rw [(Automaton.canonical hg).keys hmem]
      exact (Ascending.sorted_ofList _).nodup
    show List.lookup X (s.edges.filter (·.1.isNonTerminal)) = some j ↔ _
    rw [lookup_eq_some_iff_mem hkeys, List.mem_filter]
    constructor
    · rintro ⟨he, -⟩
      exact ⟨s, rfl, he⟩
    · rintro ⟨_, ⟨⟩, he⟩
      exact ⟨he, hX⟩

theorem mem_statesWhere {t : Table} {p : TableRow → Bool} {i : Nat} :
    i ∈ t.statesWhere p ↔ ∃ row, t.rows[i]? = some row ∧ p row := by
  rw [statesWhere, List.mem_filterMap]
  constructor
  · rintro ⟨⟨row, id⟩, hrow, h⟩
    dsimp only at h
    split_ifs at h with hp
    cases h
    exact ⟨row, List.mem_zipIdx_iff_getElem?.1 hrow, hp⟩
  · rintro ⟨row, hrow, hp⟩
    exact ⟨(row, i), List.mem_zipIdx_iff_getElem?.2 hrow, if_pos hp⟩

end Table

end Mixfix
