import Mixfix.Proofs.Automaton.Discovery
import Mixfix.Proofs.Automaton.Run

/-!
# Every state of a productive grammar acts

A symbol that has a derivation tree is expanded down the left edge of the tree by the closure of a
state that expects it: the state also has the first item of every rule on that edge.  The edge ends
at a terminal, over which the state shifts, or at an empty rule, which it reduces.  So no state is
without actions where every symbol that the rules use has a tree.

* `Grammar.Productive`: every symbol that the rules use has a tree.
* `Automaton.Canonical.acts_of_fits`: a state acts where it expects the symbol of a tree.
* `Automaton.acts_ofGrammar`: every state of a productive grammar acts.
-/

namespace Mixfix

open Ascending Mixfix.Derivation

/-- Every symbol that a rule uses has a derivation tree. -/
def Grammar.Productive (g : Grammar) : Prop :=
  ∀ rule ∈ g.rules, ∀ s ∈ rule.rhs, ∃ d : Derivation Unit, d.Fits g s

namespace Automaton

variable {g : Grammar} {a : Automaton} {s : State}

/-- The symbols behind the dot of an item have trees. -/
theorem exists_fitsAll_of_productive (hp : g.Productive) {rule : Rule} (hr : rule ∈ g.rules)
    {symbols : List Handle} (h : symbols ⊆ rule.rhs) :
    ∃ ds : List (Derivation Unit), FitsAll g ds symbols := by
  obtain ⟨ds, hds⟩ := exists_forall₂_of_forall fun X hX => hp rule hr X (h hX)
  exact ⟨ds, fitsAll_iff.2 hds.flip⟩

/-- Some terminal may come after the symbol that an item expects. -/
theorem exists_next (hg : g.WellFormed) (hp : g.Productive) {item : Item} {X : Handle}
    {rest : List Handle} (h : item.rest g = X :: rest) :
    ∃ next, next ∈ (First.ofGrammar g).startsBefore rest [item.lookahead] := by
  obtain ⟨rule, hr, -, hdrop⟩ := Item.rest_eq_cons h
  have hrest : rest ⊆ rule.rhs := fun Y hY =>
    List.mem_of_mem_drop (hdrop ▸ List.mem_cons_of_mem X hY)
  obtain ⟨ds, hds⟩ := exists_fitsAll_of_productive hp (List.mem_of_getElem? hr) hrest
  obtain ⟨next, -, -, hnext⟩ := exists_startsBefore hg hds item.lookahead []
  exact ⟨next, hnext⟩

/-- A state acts on the lookahead of a complete item. -/
theorem Canonical.acts_of_complete (hc : Canonical g a) (hs : s ∈ a) {item : Item}
    (hitem : item ∈ s.items) (h : item.isComplete g) : ∃ t action, Maps s.actions t action := by
  rw [hc.actions hs]
  exact ⟨_, _, State.maps_actionsOf.2 (.inl ⟨item, hitem, h, rfl, rfl⟩)⟩

/-- A state that expects the symbol of a tree acts. -/
theorem Canonical.acts_of_fits (hg : g.WellFormed) (hp : g.Productive) (hc : Canonical g a)
    (hs : s ∈ a) : ∀ {d : Derivation Unit} {X : Handle}, d.Fits g X → ∀ {item : Item}
      {rest : List Handle}, item ∈ s.items → item.rest g = X :: rest →
      ∃ t action, Maps s.actions t action
  | .leaf token, X, hfit, item, rest, hitem, hrest => by
    rw [Fits] at hfit
    obtain ⟨j, hj⟩ := hc.exists_edge hs hitem (Item.next?_eq_some.2 ⟨rest, hrest⟩)
    exact ⟨X, .shift j, hc.maps_shift hs hj hfit.2⟩
  | .branch id ds, X, hfit, item, rest, hitem, hrest => by
    rw [Fits] at hfit
    obtain ⟨rule, hr, rfl, hds⟩ := hfit
    obtain ⟨next, hnext⟩ := exists_next hg hp hrest
    have hinitial : ⟨id, 0, next⟩ ∈ s.items := hc.initial_mem hg hs hitem hrest hnext hr
    have hsymbols : (Item.mk id 0 next).rest g = rule.rhs := by
      rw [Item.rest, Grammar.rhs, hr]
      rfl
    match ds, hds with
    | [], hds =>
      refine hc.acts_of_complete hs hinitial ?_
      rw [Item.isComplete, hsymbols, fitsAll_nil.1 hds]
      rfl
    | d :: ds, hds =>
      rw [FitsAll] at hds
      obtain ⟨Y, others, hrhs, hd, -⟩ := hds
      exact Canonical.acts_of_fits hg hp hc hs hd hinitial (hsymbols.trans hrhs)

/-- No state is empty. -/
theorem exists_item (hg : g.WellFormed) {i : Nat} (hs : (ofGrammar g)[i]? = some s) :
    ∃ item, item ∈ s.items := by
  have hc := canonical hg
  by_cases hi : i = 0
  · subst hi
    obtain ⟨s', hs', hitems⟩ := hc.start
    cases hs.symm.trans hs'
    rw [hitems]
    exact ⟨_, ItemSet.mem_closure.2 (.inr (List.mem_singleton_self _))⟩
  · obtain ⟨j, source, X, -, hsource, he, -⟩ := exists_source hg hs hi
    have hmem := List.mem_of_getElem? hsource
    obtain ⟨s', hs', hitems⟩ := hc.edge hmem he
    cases hs.symm.trans hs'
    obtain ⟨item, hitem, -⟩ := hc.exists_moved hmem he
    rw [hitems]
    exact ⟨item, hitem⟩

/-- **Every state acts**, where every symbol that the rules use has a tree. -/
theorem acts_ofGrammar (hg : g.WellFormed) (hp : g.Productive) (hs : s ∈ ofGrammar g) :
    ∃ t action, Maps s.actions t action := by
  have hc := canonical hg
  obtain ⟨i, hi⟩ := List.getElem?_of_mem hs
  obtain ⟨item, hitem⟩ := exists_item hg hi
  cases hrest : item.rest g with
  | nil =>
    refine hc.acts_of_complete hs hitem ?_
    rw [Item.isComplete, hrest]
    rfl
  | cons X rest =>
    obtain ⟨rule, hr, -, hdrop⟩ := Item.rest_eq_cons hrest
    have hX : X ∈ rule.rhs := List.mem_of_mem_drop (hdrop ▸ List.mem_cons_self)
    obtain ⟨d, hd⟩ := hp rule (List.mem_of_getElem? hr) X hX
    exact hc.acts_of_fits hg hp hs hd hitem hrest

end Automaton

end Mixfix
