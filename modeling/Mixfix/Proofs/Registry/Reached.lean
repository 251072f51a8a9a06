import Mixfix.Proofs.Grammar
import Mixfix.Proofs.Lookup
import Mixfix.Proofs.Registry

/-!
# Registries in use

A registry in use comes from the empty one by interning groups and by declarations that succeed.
Each declaration checks what was declared before it, so the pairs of possibly empty terminals are
never chained.

* `Registry.Reached`: the registries that the operations lead to.
* `Registry.Reached.nonEmptyOf_variant`: a non-empty variant is not possibly empty itself.
-/

namespace Mixfix.Registry

/-- The registries that interning and declarations lead to from the empty one. -/
inductive Reached : Registry → Prop where
  | empty : Reached {}
  | intern {r r' : Registry} {symbols : List String} {h : Handle} : Reached r →
      r.intern symbols = .ok (h, r') → Reached r'
  | distinct {r r' : Registry} {group : List Handle} : Reached r →
      r.declareDistinct group = .ok r' → Reached r'
  | emptyPair {r r' : Registry} {empty nonEmpty : Handle} : Reached r →
      r.declareEmptyPair empty nonEmpty = .ok r' → Reached r'
  | final {r r' : Registry} {t : Handle} : Reached r → r.markFinal t = .ok r' → Reached r'

variable {r r' : Registry} {t u : Handle}

/-- A group is declared if all its members are terminals. -/
theorem declareDistinct_eq_ok {group : List Handle} : r.declareDistinct group = .ok r' ↔
    (∀ t ∈ group, t.isTerminal) ∧ r' = r.pushGroup group := by
  rw [declareDistinct_eq, except_bind_eq_ok]
  constructor
  · rintro ⟨⟨⟩, hgroup, h⟩
    cases h
    exact ⟨fun t ht => expectTerminal_eq_ok_iff.1 (forM_eq_ok.1 hgroup t ht), rfl⟩
  · rintro ⟨hgroup, rfl⟩
    exact ⟨(), forM_eq_ok.2 fun t ht => expectTerminal_eq_ok_iff.2 (hgroup t ht), rfl⟩

/-- A terminal is marked final, and nothing else. -/
theorem markFinal_eq_ok : r.markFinal t = .ok r' ↔ t.isTerminal ∧ r' = r.pushFinal t := by
  rw [markFinal_eq, except_bind_eq_ok]
  constructor
  · rintro ⟨⟨⟩, ht, h⟩
    cases h
    exact ⟨expectTerminal_eq_ok_iff.1 ht, rfl⟩
  · rintro ⟨ht, rfl⟩
    exact ⟨(), expectTerminal_eq_ok_iff.2 ht, rfl⟩

/-- Nothing objects to a pair if neither of its terminals is the end of input, they differ, the
variant is not possibly empty, and the possibly empty one is no variant and has no other variant. -/
theorem pairObjection_eq_none : r.pairObjection t u = none ↔
    (t.isEnd = false ∧ u.isEnd = false) ∧ t ≠ u ∧
      (r.nonEmptyOf u = none ∧ ∀ pair ∈ r.emptyPairs, pair.2 ≠ t) ∧
      ∀ v, r.nonEmptyOf t = some v → v = u := by
  have hends : (t.isEnd || u.isEnd) = true ↔ ¬ (t.isEnd = false ∧ u.isEnd = false) := by
    rw [← Bool.or_eq_false_iff, Bool.not_eq_false]
  have hchain : ((r.nonEmptyOf u).isSome || r.emptyPairs.any (·.2 == t)) = true ↔
      ¬ (r.nonEmptyOf u = none ∧ ∀ pair ∈ r.emptyPairs, pair.2 ≠ t) := by
    simp [Option.isSome_iff_ne_none, imp_iff_not_or]
  have hother : (r.nonEmptyOf t).any (· != u) = true ↔
      ¬ ∀ v, r.nonEmptyOf t = some v → v = u := by
    simp [Option.any_eq_true]
  unfold pairObjection
  split_ifs with h₁ h₂ h₃ h₄
  · exact ⟨fun h => (nomatch h), fun h => absurd h.1 (hends.1 h₁)⟩
  · exact ⟨fun h => (nomatch h), fun h => absurd h₂ h.2.1⟩
  · exact ⟨fun h => (nomatch h), fun h => absurd h.2.2.1 (hchain.1 h₃)⟩
  · exact ⟨fun h => (nomatch h), fun h => absurd h.2.2.2 (hother.1 h₄)⟩
  · refine ⟨fun _ => ⟨?_, h₂, ?_, ?_⟩, fun _ => rfl⟩
    · exact not_not.1 (hends.not.1 h₁)
    · exact not_not.1 (hchain.not.1 h₃)
    · exact not_not.1 (hother.not.1 h₄)

/-- Two terminals that are not refused can be a pair. -/
theorem expectPair_eq_ok_iff : r.expectPair t u = .ok () ↔
    t.isTerminal ∧ u.isTerminal ∧ r.pairObjection t u = none := by
  unfold expectPair
  constructor
  · intro h
    obtain ⟨⟨⟩, ht, h⟩ := except_bind_eq_ok.1 h
    obtain ⟨⟨⟩, hu, h⟩ := except_bind_eq_ok.1 h
    refine ⟨expectTerminal_eq_ok_iff.1 ht, expectTerminal_eq_ok_iff.1 hu, ?_⟩
    split at h
    · obtain ⟨name, -, h⟩ := except_bind_eq_ok.1 h
      obtain ⟨name', -, h⟩ := except_bind_eq_ok.1 h
      cases h
    · next hnone => exact hnone
  · rintro ⟨ht, hu, hnone⟩
    rw [expectTerminal_eq_ok_iff.2 ht, expectTerminal_eq_ok_iff.2 hu, hnone]
    rfl

/-- A pair is declared if nothing objects to it. -/
theorem declareEmptyPair_eq_ok : r.declareEmptyPair t u = .ok r' ↔
    t.isTerminal ∧ u.isTerminal ∧ r.pairObjection t u = none ∧ r' = r.pushPair t u := by
  rw [declareEmptyPair_eq, except_bind_eq_ok]
  constructor
  · rintro ⟨⟨⟩, hcheck, h⟩
    cases h
    obtain ⟨ht, hu, hnone⟩ := expectPair_eq_ok_iff.1 hcheck
    exact ⟨ht, hu, hnone, rfl⟩
  · rintro ⟨ht, hu, hnone, rfl⟩
    exact ⟨(), expectPair_eq_ok_iff.2 ⟨ht, hu, hnone⟩, rfl⟩

/-- No pair leads on from the variant of another. -/
def Unchained (r : Registry) : Prop := ∀ pair ∈ r.emptyPairs, r.emptyPairs.lookup pair.2 = none

theorem Unchained.of_emptyPairs (h : r.Unchained) (heq : r'.emptyPairs = r.emptyPairs) :
    r'.Unchained := by
  rw [Unchained, heq]
  exact h

/-- A pair that nothing objects to chains no other. -/
theorem Unchained.pushPair (h : r.Unchained) (hnone : r.pairObjection t u = none) :
    (r.pushPair t u).Unchained := by
  obtain ⟨-, hne, ⟨hvariant, hold⟩, -⟩ := pairObjection_eq_none.1 hnone
  have hlookup : ∀ x, x ≠ t → r.emptyPairs.lookup x = none →
      (r.emptyPairs ++ [(t, u)]).lookup x = none := by
    intro x hx hn
    rw [List.lookup_append, hn, Option.none_or, List.lookup_cons, beq_false_of_ne hx]
    rfl
  unfold Registry.pushPair
  split
  · exact h
  · intro pair hpair
    rcases List.mem_append.1 hpair with hpair | hpair
    · exact hlookup pair.2 (hold pair hpair) (h pair hpair)
    · rw [List.mem_singleton.1 hpair]
      exact hlookup u hne.symm hvariant

theorem Reached.unchained (h : r.Reached) : r.Unchained := by
  induction h with
  | empty => exact fun _ h => absurd h List.not_mem_nil
  | intern _ hi ih => exact ih.of_emptyPairs (issues_of_intern hi).emptyPairs
  | distinct _ hd ih =>
    obtain ⟨-, rfl⟩ := declareDistinct_eq_ok.1 hd
    exact ih.of_emptyPairs rfl
  | emptyPair _ hp ih =>
    obtain ⟨-, -, hnone, rfl⟩ := declareEmptyPair_eq_ok.1 hp
    exact ih.pushPair hnone
  | final _ hf ih =>
    obtain ⟨-, rfl⟩ := markFinal_eq_ok.1 hf
    exact ih.of_emptyPairs rfl

/-- A grammar interns one symbol more. -/
theorem Reached.of_ofRules {start : Handle} {rules : List Rule} {kinds : List (Handle × Kind)}
    {g : Grammar} (hr : r.Reached) (h : Grammar.ofRules r start rules kinds = .ok g) :
    g.registry.Reached := by
  obtain ⟨augmented, registry', hi, rfl, -⟩ := Grammar.ofRules_eq_ok h
  exact hr.intern hi

/-- A non-empty variant is not possibly empty itself. -/
theorem Reached.nonEmptyOf_variant (h : r.Reached) (hu : r.nonEmptyOf t = some u) :
    r.nonEmptyOf u = none :=
  h.unchained (t, u) (mem_of_lookup_eq_some hu)

end Mixfix.Registry
