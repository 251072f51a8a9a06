import Mixfix.Proofs.Assembly.Blame
import Mixfix.Proofs.Assembly.Exclusion
import Mixfix.Proofs.Executor.Decisive

/-!
# Assembled parsers without conflicts

A state that is blamed on nothing and has an active item has a plan without conflicts. So the
executor of an assembled parser without conflicts decides every state that it comes to.

* `Catalogue.decided_of_blame`: states that are not blamed are decided.
* `Catalogue.Assembles.decisive`: the executor is decisive.
-/

namespace Mixfix

namespace Catalogue

open Ascending

/-! ### Blame -/

/-- States that are not blamed are decided, if they have an active item. -/
theorem decided_of_blame {origins : List (String × String)} {t : Table}
    (h : blame origins t = .ok []) {i : Nat} {row : TableRow} (hrow : t.rows[i]? = some row)
    {item : Item} (hitem : item ∈ row.items) (hactive : isActive t.grammar item) :
    row.plan.hasError = false := by
  rw [← Bool.not_eq_true]
  intro herror
  obtain ⟨origin, hblames⟩ := exists_blames h hrow (.inl herror) hitem hactive
  obtain ⟨_, hmem, -⟩ := ((blame_exact h).2.2 origin i).2 hblames
  cases hmem

/-- What a state acts on, an active item of it asks for. -/
theorem exists_active {g : Grammar} {a : Automaton} (hc : a.Canonical g) {s : State} (hs : s ∈ a)
    {t : Handle} {action : Action} (h : Maps s.actions t action) :
    ∃ item ∈ s.items, isActive g item := by
  rw [hc.actions hs, State.maps_actionsOf] at h
  rcases h with ⟨item, hitem, hcomplete, -⟩ | ⟨j, he, ht, -⟩
  · exact ⟨item, hitem, isActive_iff.2 (.inl hcomplete)⟩
  · have hmem : t ∈ s.items.expected g := by
      rw [← hc.keys hs]
      exact List.mem_map_of_mem he
    obtain ⟨item, hitem, hnext⟩ := ItemSet.mem_expected.1 hmem
    exact ⟨item, hitem, isActive_iff.2 (.inr ⟨t, hnext, ht⟩)⟩

/-! ### The executor -/

variable {c : Catalogue} {entry : Entry} {a : Assembled} {known : List String}
  {ds : List (Nat × Declaration)} {start : String} {σ : Type}

/-- The augmented nonterminal is not used. -/
theorem Assembles.fresh (h : c.Assembles entry a known ds start) : a.table.grammar.Fresh := by
  obtain ⟨augmented, rules, hrules, haugmented, hstart, hrows⟩ := h.rules
  -- A name of declared syntax has another handle than the augmented nonterminal.
  have hne : ∀ {name k}, IsName name → a.table.grammar.registry.find? [name] = some k →
      k ≠ augmented := by
    rintro name k hname hk rfl
    have heq := (Registry.lookup?_of_find? hk).symm.trans (Registry.lookup?_of_find? haugmented)
    simp only [Option.some.injEq, List.cons.injEq, and_true] at heq
    exact hname.ne_augmented heq
  intro rule₀ h0 rule hrule hmem
  rw [hrules] at h0 hrule
  cases h0
  rcases List.mem_cons.1 hrule with rfl | hrule
  · exact hne h.isName_start hstart.1 (List.mem_singleton.1 hmem).symm
  · obtain ⟨row, hrow, -, hrhs⟩ := hrows rule hrule
    obtain ⟨e, he, hstands⟩ := exists_of_forall₂ hrhs hmem
    cases e with
    | nonTerminal name => exact hne (hrow.isName he) hstands.1 rfl
    | terminal group =>
      have hnon := h.wellFormed.lhs_nonTerminal ⟨augmented, [a.table.grammar.start]⟩
        (hrules ▸ List.mem_cons_self)
      rw [Handle.isNonTerminal_eq, hstands.2] at hnon
      cases hnon
    | _ => exact hstands

theorem Assembles.exists_kind (h : c.Assembles entry a known ds start) {rule : Rule}
    (hrule : rule ∈ a.table.grammar.rules) : ∃ kind, a.table.grammar.kind rule.lhs = .ok kind := by
  obtain ⟨name, hname⟩ := Executor.exists_name (issued_of_lower h.lowered rule hrule)
  rw [Grammar.kind]
  split
  · exact ⟨_, rfl⟩
  · rw [hname]
    exact ⟨_, rfl⟩

/-- **The executor of an assembled parser** without conflicts decides. -/
theorem Assembles.decisive (h : c.Assembles entry a known ds start)
    (hconflicts : a.conflicts = []) :
    Executor.Decisive a.table.grammar (a.executor (σ := σ)) := by
  have hl := h.lexicon
  have hc := Automaton.canonical h.wellFormed
  have htold : ∀ {t k}, t ∈ Terminal.every (literalsOf ds) →
      a.table.grammar.registry.handleOf t = some k →
      (a.executor (σ := σ)).terminals.lookup k = some (t.parser a.literals) := by
    intro t k ht hk
    rw [Assembled.lookup_executor, hl.lookup.2 ⟨ht, hk⟩]
    rfl
  exact
    { wellFormed := h.wellFormed
      table := h.table
      kind := fun rule => h.exists_kind
      ending := by
        cases hend : a.table.grammar.registry.nonEmptyOf .endOfInput with
        | none => rfl
        | some k =>
          cases Registry.handleOf_injective (hl.nonEmptyOf.1 hend).1 Registry.handleOf_end
      variant := fun {t u} hu => by
        obtain ⟨ht, hu'⟩ := hl.nonEmptyOf.1 hu
        have hblank := htold (t := .blank) (by simp) hu'
        have hoptional := htold (t := .optionalBlank) (by simp) ht
        refine ⟨⟨?_, by rw [hblank]; rfl⟩, _, hblank, hoptional⟩
        cases hnon : a.table.grammar.registry.nonEmptyOf u with
        | none => exact hnon
        | some v => cases Registry.handleOf_injective (hl.nonEmptyOf.1 hnon).1 hu'
      decided := fun {i s t action} hs hmaps => by
        obtain ⟨item, hitem, hactive⟩ := exists_active hc (List.mem_of_getElem? hs) hmaps
        have hrow : a.table.rows[i]? = some { s with
            plan := (Automaton.ofGrammar a.table.grammar).planOf a.table.grammar i } := by
          rw [h.table, Table.getElem?_rows]
          exact congrArg _ hs
        exact decided_of_blame (hconflicts ▸ h.blamed) hrow hitem hactive
      apart := fun {i s} hs node hnode => by
        have hplan : a.table.plan? i =
            some ((Automaton.ofGrammar a.table.grammar).planOf a.table.grammar i) := by
          rw [h.table]
          exact Table.plan?_ofGrammar.2 ⟨s, hs, rfl⟩
        obtain ⟨hs, hnodup, rfl, hhandles⟩ := hl.classes h.wellFormed h.table hplan hnode
        rw [← List.flatMap_def, List.flatMap_singleton']
        refine ⟨hnodup, fun k hk => ?_⟩
        obtain ⟨hnone, t, ht, hhandle⟩ := hhandles k hk
        exact ⟨hnone, by rw [htold (Terminal.mem_every.2 (.inr ht)) hhandle]; rfl⟩ }

end Catalogue

end Mixfix
