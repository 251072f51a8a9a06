import Mixfix.Proofs.Grammar.Lowering
import Mixfix.Proofs.Registry.Reached

/-!
# Lowering keeps the language

The plain grammar of an expression grammar derives, from every nonterminal that the user wrote, the
words that the expressions of the nonterminal denote.

What the plain grammar derives satisfies its rules, so it satisfies the expressions, and includes
their least solution. The least solution, on the other hand, extends to the made nonterminals and to
the augmented start symbol such that all rules hold; whatever satisfies the rules includes what is
derived.

* `ExprGrammar.nonTerminals`: the nonterminals that the user wrote.
* `ExprGrammar.lower_eq_ok`: the steps of lowering a grammar.
* `ExprGrammar.lower_language`: the language of every nonterminal is what it means.
-/

namespace Mixfix

namespace ExprGrammar

variable {g : ExprGrammar} {G : Grammar} {r r' : Registry}

/-- The nonterminals that the user wrote: the start symbol, those of the rules, and those with a
kind. -/
def nonTerminals (g : ExprGrammar) : List String :=
  g.start :: g.rules.flatMap (fun rule => rule.1 :: rule.2.names) ++
    (g.kinds.map (·.1)).filter isNonTerminalSymbol

/-! ### Declarations -/

theorem internAll_extends {groups : List (List String)} {handles : List Handle}
    (h : internAll r groups = .ok (handles, r')) : r.Extends r' := by
  induction groups generalizing r handles with
  | nil =>
    cases h
    exact .refl _
  | cons group groups ih =>
    obtain ⟨⟨handle, r₁⟩, hi, h⟩ := except_bind_eq_ok.1 h
    obtain ⟨⟨handles', r₂⟩, hall, h⟩ := except_bind_eq_ok.1 h
    cases h
    exact (Registry.intern_spec hi).2.trans (ih hall)

theorem declareDistinct_extends {group : List (List String)}
    (h : declareDistinct r group = .ok r') : r.Extends r' := by
  obtain ⟨⟨handles, r₁⟩, hi, h⟩ := except_bind_eq_ok.1 h
  obtain ⟨-, rfl⟩ := Registry.declareDistinct_eq_ok.1 h
  have he := internAll_extends (except_lift_problem_eq_ok.1 hi)
  exact he.trans (r₁.extends_pushGroup handles)

theorem declareEmptyPair_extends {pair : List String × List String}
    (h : declareEmptyPair r pair = .ok r') : r.Extends r' := by
  obtain ⟨⟨empty, r₁⟩, hempty, h⟩ := except_bind_eq_ok.1 h
  obtain ⟨⟨nonEmpty, r₂⟩, hnonEmpty, h⟩ := except_bind_eq_ok.1 h
  obtain ⟨-, -, -, rfl⟩ := Registry.declareEmptyPair_eq_ok.1 h
  have he := (Registry.intern_spec (except_lift_problem_eq_ok.1 hempty)).2.trans
    (Registry.intern_spec (except_lift_problem_eq_ok.1 hnonEmpty)).2
  exact he.trans (r₂.extends_pushPair empty nonEmpty)

theorem markFinal_extends {group : List String} (h : markFinal r group = .ok r') :
    r.Extends r' := by
  obtain ⟨⟨t, r₁⟩, hi, h⟩ := except_bind_eq_ok.1 h
  obtain ⟨-, rfl⟩ := Registry.markFinal_eq_ok.1 h
  have he := (Registry.intern_spec (except_lift_problem_eq_ok.1 hi)).2
  exact he.trans (r₁.extends_pushFinal t)

theorem foldlM_extends {α : Type} {f : Registry → α → Except Failure Registry}
    (hf : ∀ {r a r'}, f r a = .ok r' → r.Extends r') {as : List α}
    (h : as.foldlM f r = .ok r') : r.Extends r' := by
  induction as generalizing r with
  | nil =>
    cases h
    exact .refl _
  | cons a as ih =>
    rw [List.foldlM_cons] at h
    obtain ⟨r₁, ha, h⟩ := except_bind_eq_ok.1 h
    exact (hf ha).trans (ih h)

theorem declareAll_extends (h : g.declareAll r = .ok r') : r.Extends r' := by
  obtain ⟨r₁, hdistinct, h⟩ := except_bind_eq_ok.1 h
  obtain ⟨r₂, hpairs, h⟩ := except_bind_eq_ok.1 h
  exact ((foldlM_extends declareDistinct_extends hdistinct).trans
    (foldlM_extends declareEmptyPair_extends hpairs)).trans (foldlM_extends markFinal_extends h)

theorem internKinds_extends {kinds : List (String × Kind)} {handles : List (Handle × Kind)}
    (h : internKinds r kinds = .ok (handles, r')) : r.Extends r' := by
  induction kinds generalizing r handles with
  | nil =>
    cases h
    exact .refl _
  | cons kind kinds ih =>
    obtain ⟨⟨handle, r₁⟩, hi, h⟩ := except_bind_eq_ok.1 h
    obtain ⟨⟨handles', r₂⟩, hall, h⟩ := except_bind_eq_ok.1 h
    cases h
    exact (Registry.intern_spec hi).2.trans (ih hall)

theorem internKinds_knows {kinds : List (String × Kind)} {handles : List (Handle × Kind)}
    (h : internKinds r kinds = .ok (handles, r')) :
    ∀ name ∈ (kinds.map (·.1)).filter isNonTerminalSymbol, r'.Knows name := by
  induction kinds generalizing r handles with
  | nil => simp
  | cons kind kinds ih =>
    obtain ⟨⟨handle, r₁⟩, hi, h⟩ := except_bind_eq_ok.1 h
    obtain ⟨⟨handles', r₂⟩, hall, h⟩ := except_bind_eq_ok.1 h
    cases h
    intro name hname
    obtain ⟨hmem, hs⟩ := List.mem_filter.1 hname
    rcases List.mem_cons.1 hmem with rfl | hmem
    · have hf := (Registry.intern_spec hi).1
      exact (internKinds_extends hall).knows
        ⟨handle, hf, (Registry.isNonTerminal_of_find? hf).trans hs⟩
    · exact ih hall name (List.mem_filter.2 ⟨hmem, hs⟩)

/-! ### The grammar that comes out -/

/-- The steps of lowering a grammar. -/
theorem lower_eq_ok (h : g.lower.result = .ok G) :
    ∃ start l r kinds r', Lowering.lowerRules g {} = .ok (start, l) ∧
      g.declareAll l.registry = .ok r ∧ internKinds r g.kinds = .ok (kinds, r') ∧
      Grammar.ofRules r' start l.rules (l.kinds ++ kinds) = .ok G := by
  obtain ⟨⟨start, l⟩, hrules, h⟩ := Traced.bind_eq_ok.1 h
  obtain ⟨r, hdeclare, h⟩ := Traced.bind_eq_ok.1 h
  obtain ⟨⟨kinds, r'⟩, hkinds, h⟩ := Traced.bind_eq_ok.1 h
  obtain ⟨⟨⟩, -, h⟩ := Traced.bind_eq_ok.1 h
  exact ⟨start, l, r, kinds, r', Traced.lift_problem_eq_ok.1 hrules, hdeclare,
    Traced.lift_problem_eq_ok.1 hkinds, h⟩

/-- The grammar knows every nonterminal that the user wrote. -/
theorem knows_of_lower (h : g.lower.result = .ok G) :
    ∀ name ∈ g.nonTerminals, G.registry.Knows name := by
  obtain ⟨start, l, r, kinds, r', hrules, hdeclare, hkinds, hof⟩ := lower_eq_ok h
  obtain ⟨augmented, registry, haug, rfl, -⟩ := Grammar.ofRules_eq_ok hof
  obtain ⟨registry₀, hstart, hn, hall⟩ := Lowering.lowerRules_eq_ok hrules
  have hext : r'.Extends registry := (Registry.intern_spec haug).2
  have hR : l.registry.Extends registry :=
    ((declareAll_extends hdeclare).trans (internKinds_extends hkinds)).trans hext
  intro name hname
  rcases List.mem_append.1 hname with hmem | hmem
  · rcases List.mem_cons.1 hmem with rfl | hmem
    · exact ((Lowering.lowerAll_grows hall).registry.trans hR).knows ⟨start, hstart, hn⟩
    · obtain ⟨rule, hrule, hmem⟩ := List.mem_flatMap.1 hmem
      exact hR.knows (Lowering.lowerAll_knows hall rule hrule name hmem)
  · exact hext.knows (internKinds_knows hkinds name hmem)

/-- The grammar has the augmented rule and the rules made for the expressions, and knows every
nonterminal that the user wrote. -/
structure LoweredTo (g : ExprGrammar) (G : Grammar) : Prop where
  rules : ∃ augmented start l, G.rules = ⟨augmented, [start]⟩ :: l.rules ∧
    G.registry.find? [augmentedStart] = some augmented ∧ augmented.isNonTerminal ∧
    G.registry.find? [g.start] = some start ∧ start.isNonTerminal ∧
    Lowering.Lowered G.registry g.rules {} l
  knows : ∀ name ∈ g.nonTerminals, G.registry.Knows name

theorem LoweredTo.of_lower (h : g.lower.result = .ok G)
    (plain : ∀ name ∈ g.nonTerminals, name ∈ plainNames) : g.LoweredTo G := by
  obtain ⟨start, l, r, kinds, r', hrules, hdeclare, hkinds, hof⟩ := lower_eq_ok h
  obtain ⟨augmented, registry, haug, rfl, hchecks⟩ := Grammar.ofRules_eq_ok hof
  obtain ⟨registry₀, hstart, hn, hall⟩ := Lowering.lowerRules_eq_ok hrules
  obtain ⟨hfind, hext⟩ := Registry.intern_spec haug
  have hR : l.registry.Extends registry :=
    ((declareAll_extends hdeclare).trans (internKinds_extends hkinds)).trans hext
  have hplain : ∀ rule ∈ g.rules, ∀ n ∈ rule.1 :: rule.2.names, n ∈ plainNames := by
    intro rule hrule n hmem
    refine plain n (List.mem_append_left _ (List.mem_cons_of_mem _ ?_))
    exact List.mem_flatMap.2 ⟨rule, hrule, hmem⟩
  have htidy : Lowering.Tidy registry { registry := registry₀ } :=
    { current := (by decide : "" ≠ augmentedStart ∧ '~' ∉ "".toList)
      dependsOn := fun _ _ _ => by simp [Registry.Satisfied]
      issued := fun _ hr => nomatch hr }
  have hgrow := Lowering.lowerAll_grows hall
  have low := Lowering.lowerAll_lowered hall hR hplain htidy
  refine ⟨⟨augmented, start, l, rfl, hfind, ?_, (hgrow.registry.trans hR).find? hstart, hn,
    low.tidy, low.covers, low.solvable⟩, knows_of_lower h⟩
  exact (Grammar.checkRule_eq_ok.1 (hchecks _ List.mem_cons_self)).1

/-! ### Its languages -/

/-- What the grammar derives includes the least solution of the expressions. -/
theorem LoweredTo.meaning_le (h : g.LoweredTo G) : g.meaning ≤ G.nameLanguage := by
  obtain ⟨augmented, start, l, hrules, hfind, haug, -, -, low⟩ := h.rules
  have hs : G.registry.Satisfied G.nameLanguage G.rules := by
    apply Grammar.satisfied_nameLanguage
    rw [hrules]
    exact List.forall_mem_cons.2 ⟨⟨augmentedStart, hfind, haug⟩, low.tidy.issued⟩
  rw [hrules] at hs
  exact ExprGrammar.meaning_le (low.covers _ (List.forall_mem_cons.1 hs).2)

/-- The least solution of the expressions extends to languages that satisfy all rules. -/
theorem LoweredTo.exists_satisfied (h : g.LoweredTo G)
    (hstart : g.start ∈ plainNames) :
    ∃ ρ, Set.EqOn ρ g.meaning plainNames ∧ G.registry.Satisfied ρ G.rules := by
  obtain ⟨augmented, start, l, hrules, hfind, haug, hfs, hn, low⟩ := h.rules
  obtain ⟨ρ, heq, hs⟩ := low.solvable g.meaning g.meaning g.satisfies_meaning (fun _ _ => rfl)
    (fun _ hr => nomatch hr)
  -- The rules made for the expressions do not mention the augmented start symbol.
  let ρ' := Function.update ρ augmentedStart (ρ g.start)
  have hne : ∀ k, Set.EqOn ρ' ρ (namesWithin k) := by
    intro k name hname
    refine Function.update_of_ne ?_ _ _
    rintro rfl
    exact augmentedStart_notMem k hname
  have hnew : ρ' augmentedStart = ρ g.start := Function.update_self ..
  refine ⟨ρ', ((hne 0).mono (plainNames_subset 0)).trans heq, ?_⟩
  rw [hrules]
  refine List.forall_mem_cons.2 ⟨?_, (low.tidy.dependsOn (hne _)).mpr hs⟩
  rw [Registry.rowWords_cons, Registry.rowWords_nil, mul_one,
    Registry.words_nonTerminal hfs hn, Registry.words_nonTerminal hfind haug]
  exact ((hne 0 (plainNames_subset 0 hstart)).trans hnew.symm).le

/-- The language of every nonterminal that the user wrote is what its expressions denote. -/
theorem lower_language (h : g.lower.result = .ok G)
    (plain : ∀ name ∈ g.nonTerminals, name ≠ augmentedStart ∧ '~' ∉ name.toList) :
    ∀ name ∈ g.nonTerminals, ∃ n, G.registry.find? [name] = some n ∧ n.isNonTerminal ∧
      G.language n = g.meaning name := by
  have low := LoweredTo.of_lower h plain
  intro name hname
  obtain ⟨n, hf, hn⟩ := low.knows name hname
  refine ⟨n, hf, hn, le_antisymm ?_ ?_⟩
  · obtain ⟨ρ, heq, hs⟩ := low.exists_satisfied (plain _ List.mem_cons_self)
    calc G.language n
      _ ≤ G.registry.words ρ n := Grammar.language_le hs n
      _ = ρ name := Registry.words_nonTerminal hf hn
      _ = g.meaning name := heq (plain name hname)
  · intro w hw
    obtain ⟨n', hf', hw⟩ := low.meaning_le name hw
    cases hf.symm.trans hf'
    exact hw

/-- Lists of `x`, each with an optional `A`: some `y` and `k w` in a row, or a list in brackets. -/
def nestedLists : ExprGrammar where
  start := "S"
  rules :=
    [("S", .star (.seq [.terminal ["x"], .opt (.nonTerminal "A")])),
      ("A", .plus (.alt [.terminal ["y"], .terminal ["k", "w"]])),
      ("A", .seq [.terminal ["("], .nonTerminal "S", .terminal [")"]])]
  kinds := [("A", .transparent)]

theorem nestedLists_language : ∃ G, nestedLists.lower.result = .ok G ∧
    ∀ name ∈ nestedLists.nonTerminals, ∃ n, G.registry.find? [name] = some n ∧ n.isNonTerminal ∧
      G.language n = nestedLists.meaning name := by
  have hok : nestedLists.lower.result.isOk = true := by decide +kernel
  match h : nestedLists.lower.result, hok with
  | .ok G, _ => exact ⟨G, rfl, lower_language h (by decide)⟩

end ExprGrammar

end Mixfix
