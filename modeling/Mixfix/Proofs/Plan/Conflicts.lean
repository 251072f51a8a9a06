import Mixfix.Proofs.Plan.Selection
import Mixfix.Proofs.Table

/-!
# A plan leaves a conflict exactly where there is one

Where no terminal is possibly empty and different terminals are distinct, a token read tells its
terminal.  Two actions on one terminal are both still there once it is read, and one of them is no
shift, so it has nothing more to read: the conflict stays.  Where every terminal has one action, the
plan is the one move of all actions, or it reads a token and makes the move of its terminal.

* `Plan.Settles`: a plan without conflicts makes the move of the one action on the terminal ahead.
* `Plan.hasError_of_clash`: two actions of which one has read all it can leave a conflict.
* `Automaton.hasError_planOf_iff`, `Automaton.settles_planOf`: the plan of a state.
* `Table.unresolved_exact`: the states that are left unresolved.
-/

namespace Mixfix

open Ascending

/-- The end of input is distinct from every other terminal. -/
theorem Registry.distinct_of_isEnd {r : Registry} {t u : Handle} (h : t.isEnd ∨ u.isEnd)
    (hne : t ≠ u) : r.distinct t u := by
  rw [distinct, if_neg hne, if_pos (by simpa using h)]

namespace Plan

/-- The plan makes the one move of all actions of the state; or it reads a token, tells every
terminal of the state from the others, and makes the move of the only action on it. -/
inductive Settles (s : State) : Plan → Prop where
  | atOnce {t : Handle} {action : Action} : Maps s.actions t action →
      (∀ u x, Maps s.actions u x → x.move u = action.move t) → Settles s (action.move t)
  | read (next : Handle → Action) :
      (∀ t x, Maps s.actions t x ↔ t ∈ s.terminals ∧ x = next t) →
      Settles s (.read (s.terminals.map fun t => ([t], (next t).move t)))

theorem hasError_move (t : Handle) (x : Action) : (x.move t).hasError = false := by
  cases x <;> rfl

theorem Settles.hasError_eq_false {s : State} {plan : Plan} (h : Settles s plan) :
    plan.hasError = false := by
  cases h with
  | @atOnce t action => exact hasError_move t action
  | read next =>
    rw [hasError, someError_eq_false]
    intro branch hbranch
    obtain ⟨t, -, rfl⟩ := List.mem_map.1 hbranch
    exact hasError_move t (next t)

theorem someError_of_mem {branches : List (List Handle × Plan)} {branch : List Handle × Plan}
    (hmem : branch ∈ branches) (h : branch.2.hasError) : someError branches := by
  by_contra hn
  have := someError_eq_false.1 (Bool.eq_false_of_not_eq_true hn) branch hmem
  rw [h] at this
  cases this

variable {r : Registry} {c d e : Candidate} {cs : List Candidate}

/-- Two candidates with different actions do not agree. -/
theorem not_agree_of_clash (hd : d ∈ c :: cs) (he : e ∈ c :: cs) (hne : d.action ≠ e.action) :
    ¬ ∀ e ∈ cs, c.agreesWith e :=
  fun h => hne ((action_eq_of_agree h hd).trans (action_eq_of_agree h he).symm)

/-- Candidates that do not agree, of which one has nothing left to read, are a conflict. -/
theorem hasError_of_nothing_ahead (hpairs : r.emptyPairs = []) (hd : d ∈ cs) (he : e ∈ cs)
    (hne : d.action ≠ e.action) (hnil : d.lookahead = []) (depth : Nat) :
    (chooseWithin r (depth + 1) cs).hasError := by
  cases cs with
  | nil => cases hd
  | cons c cs =>
    have hagree := not_agree_of_clash hd he hne
    have hempty : (c :: cs).any (·.lookahead.isEmpty) :=
      List.any_eq_true.2 ⟨d, hd, by simp [hnil]⟩
    rw [chooseWithin, if_neg (by simpa using hagree), if_neg (by simp [any_emptyAhead hpairs]),
      if_pos hempty]
    rfl

/-- **A clash stays.** Of two different actions on one terminal, of which one has read all it can
once the terminal is read, no reading selects one. -/
theorem hasError_of_clash (hpairs : r.emptyPairs = [])
    (hdistinct : ∀ t ∈ cs.filterMap (·.lookahead.head?), ∀ u ∈ cs.filterMap (·.lookahead.head?),
      t ≠ u → r.distinct t u)
    (hahead : ∀ c ∈ cs, c.lookahead ≠ []) (hd : d ∈ cs) (he : e ∈ cs) (hne : d.action ≠ e.action)
    {t : Handle} (hdt : d.lookahead = [t]) (het : e.lookahead.head? = some t) (depth : Nat) :
    (chooseWithin r (depth + 2) cs).hasError := by
  have hdhead : d.lookahead.head? = some t := by rw [hdt]; rfl
  have hrouted : ∀ {c}, c ∈ cs → c.lookahead.head? = some t → c.consume ∈ routed cs [t] :=
    fun hc ht => mem_routed.2 ⟨_, hc, by simp [ht], rfl⟩
  have hleft : (chooseWithin r (depth + 1) (routed cs [t])).hasError :=
    hasError_of_nothing_ahead hpairs (hrouted hd hdhead) (hrouted he het) hne
      (by simp [Candidate.consume, hdt]) depth
  cases cs with
  | nil => cases hd
  | cons c cs =>
    rw [chooseWithin_read hpairs (not_agree_of_clash hd he hne) hahead hdistinct, hasError]
    refine someError_of_mem (List.mem_map_of_mem ?_) hleft
    exact mem_ofList.2 (List.mem_filterMap.2 ⟨d, hd, hdhead⟩)

end Plan

namespace Automaton

variable {g : Grammar} {a : Automaton} {i : Nat} {s : State}

/-! ### Conflicts -/

/-- A conflict is a terminal with two actions. -/
theorem Canonical.hasConflict_iff (hc : Canonical g a) (hs : s ∈ a) : s.hasConflict ↔
    ∃ t x y, Maps s.actions t x ∧ Maps s.actions t y ∧ x ≠ y := by
  constructor
  · intro h
    obtain ⟨⟨t, actions⟩, hmem, hlength⟩ := List.any_eq_true.1 h
    have hlength : 1 < actions.length := by simpa using hlength
    have hne : actions[0] ≠ actions[1] :=
      (((hc.ordered_actions hs).2 _ hmem).nodup.getElem_inj_iff).not.2 Nat.zero_ne_one
    exact ⟨t, actions[0], actions[1], ⟨actions, hmem, List.getElem_mem _⟩,
      ⟨actions, hmem, List.getElem_mem _⟩, hne⟩
  · rintro ⟨t, x, y, hx, hy, hne⟩
    by_contra hconflict
    exact hne (hc.action_unique hs (Bool.eq_false_of_not_eq_true hconflict) hx hy)

/-- Of two actions on one terminal, one at least is no shift. -/
theorem Canonical.exists_not_shift (hc : Canonical g a) (hs : s ∈ a) (h : s.hasConflict) :
    ∃ t x y, Maps s.actions t x ∧ Maps s.actions t y ∧ x ≠ y ∧ ∀ j, x ≠ .shift j := by
  obtain ⟨t, x, y, hx, hy, hne⟩ := (hc.hasConflict_iff hs).1 h
  by_cases hshift : ∃ j, x = .shift j
  · obtain ⟨j, rfl⟩ := hshift
    refine ⟨t, y, _, hy, hx, hne.symm, ?_⟩
    rintro k rfl
    -- A state has one transition over a symbol.
    have hj := (hc.next?_eq_some hs).2 (hc.edge_of_shift hs hx)
    have hk := (hc.next?_eq_some hs).2 (hc.edge_of_shift hs hy)
    cases hj.symm.trans hk
    exact hne rfl
  · exact ⟨t, x, y, hx, hy, hne, fun j hj => hshift ⟨j, hj⟩⟩

/-- Where no terminal is possibly empty, an action that is no shift has its terminal alone ahead. -/
theorem exists_candidate_alone (hpairs : g.registry.emptyPairs = []) (hs : a[i]? = some s)
    {t : Handle} {x : Action} (h : Maps s.actions t x) (hx : ∀ j, x ≠ .shift j) :
    ∃ c ∈ a.candidates g i, c.action = x ∧ c.lookahead = [t] := by
  have hex : ∃ c ∈ a.candidatesFor g i t x, c.action = x ∧ c.lookahead = [t] := by
    cases x with
    | shift j => exact absurd rfl (hx j)
    | reduce rule =>
      refine ⟨_, List.mem_map_of_mem ?_, rfl, rfl⟩
      simp [lookaheads, Registry.nonEmptyOf, hpairs]
    | accept => exact ⟨_, List.mem_singleton_self _, rfl, rfl⟩
  obtain ⟨c, hc, hspec⟩ := hex
  exact ⟨c, (mem_candidates hs).2 ⟨t, x, h, hc⟩, hspec⟩

theorem lookahead_ne_nil (hs : a[i]? = some s) {c : Candidate} (h : c ∈ a.candidates g i) :
    c.lookahead ≠ [] := by
  obtain ⟨t, -, hhead, -⟩ := spec_of_mem_candidates hs h
  intro hnil
  rw [hnil] at hhead
  cases hhead

/-- The terminals ahead are those that the state acts on. -/
theorem Canonical.ofList_heads (hc : Canonical g a) (hs : a[i]? = some s) :
    ofList ((a.candidates g i).filterMap (·.lookahead.head?)) = s.terminals := by
  have hmem := List.mem_of_getElem? hs
  have hsorted : Sorted s.terminals := List.pairwise_map.2 (hc.ordered_actions hmem).1
  refine (sorted_ofList _).ext hsorted fun t => ?_
  rw [mem_ofList, List.mem_filterMap, hc.mem_state_terminals hmem]
  constructor
  · rintro ⟨c, hcand, ht⟩
    obtain ⟨u, hmaps, hu, -⟩ := spec_of_mem_candidates hs hcand
    cases ht.symm.trans hu
    exact ⟨_, hmaps⟩
  · rintro ⟨action, hmaps⟩
    obtain ⟨c, hcand, -, ht⟩ := exists_mem_candidates (g := g) hs hmaps
    exact ⟨c, hcand, ht⟩

/-- A state has candidates exactly if it has actions. -/
theorem Canonical.candidates_eq_nil (hc : Canonical g a) (hs : a[i]? = some s) :
    a.candidates g i = [] ↔ s.actions = [] := by
  constructor
  · intro hnil
    by_contra hne
    obtain ⟨⟨t, actions⟩, he⟩ := List.exists_mem_of_ne_nil _ hne
    obtain ⟨action, hmaps⟩ := (hc.mem_state_terminals (List.mem_of_getElem? hs)).1
      (List.mem_map_of_mem he)
    obtain ⟨c, hcand, -⟩ := exists_mem_candidates (g := g) hs hmaps
    rw [hnil] at hcand
    cases hcand
  · intro hnil
    refine List.eq_nil_iff_forall_not_mem.2 fun c hcand => ?_
    obtain ⟨t, action, hmaps, -⟩ := (mem_candidates hs).1 hcand
    rw [hnil] at hmaps
    exact maps_nil hmaps

section

variable (hc : Canonical g a) (hpairs : g.registry.emptyPairs = [])
  (hd : ∀ t ∈ g.terminals, ∀ u ∈ g.terminals, t ≠ u → g.registry.distinct t u)
  (hs : a[i]? = some s)

include hc hd hs

theorem heads_distinct : ∀ t ∈ (a.candidates g i).filterMap (·.lookahead.head?),
    ∀ u ∈ (a.candidates g i).filterMap (·.lookahead.head?), t ≠ u → g.registry.distinct t u := by
  have hheads : ∀ t ∈ (a.candidates g i).filterMap (·.lookahead.head?),
      t ∈ Handle.endOfInput :: g.terminals := by
    intro t ht
    obtain ⟨c, hcand, hhead⟩ := List.mem_filterMap.1 ht
    exact mem_of_mem_candidates hc hs hcand t (List.mem_of_mem_head? hhead)
  intro t ht u hu hne
  rcases List.mem_cons.1 (hheads t ht) with rfl | ht
  · exact Registry.distinct_of_isEnd (.inl rfl) hne
  rcases List.mem_cons.1 (hheads u hu) with rfl | hu
  · exact Registry.distinct_of_isEnd (.inr rfl) hne
  · exact hd t ht u hu hne

include hpairs

/-- The plan of a state with a conflict leaves one. -/
theorem hasError_planOf (h : s.hasConflict) : (a.planOf g i).hasError := by
  obtain ⟨t, x, y, hx, hy, hne, hshift⟩ := hc.exists_not_shift (List.mem_of_getElem? hs) h
  obtain ⟨c, hcand, rfl, hct⟩ := exists_candidate_alone hpairs hs hx hshift
  obtain ⟨e, hecand, rfl, het⟩ := exists_mem_candidates (g := g) hs hy
  obtain ⟨depth, hdepth⟩ := Plan.exists_depth g.registry (a.candidates g i)
  rw [planOf, hdepth]
  exact Plan.hasError_of_clash hpairs (heads_distinct hc hd hs)
    (fun _ => lookahead_ne_nil hs) hcand hecand hne hct het depth

/-- **The plan of a state** without conflicts settles it. -/
theorem settles_planOf (hconflict : s.hasConflict = false) (hacts : s.actions ≠ []) :
    Plan.Settles s (a.planOf g i) := by
  have hmem := List.mem_of_getElem? hs
  obtain ⟨depth, hdepth⟩ := Plan.exists_depth g.registry (a.candidates g i)
  have hstand : Plan.StandFor (Maps s.actions) (a.candidates g i) :=
    fun c => spec_of_mem_candidates hs
  have hdistinct := heads_distinct hc hd hs
  have hterminals := hc.ofList_heads hs
  have hahead : ∀ c ∈ a.candidates g i, c.lookahead ≠ [] := fun _ => lookahead_ne_nil hs
  have hacted : ∀ {t x}, Maps s.actions t x → ∃ c ∈ a.candidates g i,
      c.action = x ∧ c.lookahead.head? = some t := exists_mem_candidates hs
  rw [planOf, hdepth]
  cases hcs : a.candidates g i with
  | nil => exact absurd ((hc.candidates_eq_nil hs).1 hcs) hacts
  | cons c cs =>
    rw [hcs] at hstand hdistinct hterminals hahead hacted
    by_cases hall : ∀ e ∈ cs, c.agreesWith e
    · obtain ⟨t, hmaps, -, hleaf, -⟩ := hstand c List.mem_cons_self
      rw [Plan.chooseWithin_of_agree hall, hleaf]
      refine .atOnce hmaps fun u x hx => ?_
      obtain ⟨e, he, rfl, -⟩ := hacted hx
      rw [Plan.action_eq_of_agree hall he] at hx ⊢
      exact hc.move_eq hmem hx hmaps
    · obtain ⟨next, hnext⟩ : ∃ next : Handle → Action, ∀ t ∈ s.terminals,
          Maps s.actions t (next t) := by
        have : Nonempty Action := ⟨.accept⟩
        choose! next hnext using fun t => (hc.mem_state_terminals hmem (t := t)).1
        exact ⟨next, hnext⟩
      have hroute : ∀ t ∈ s.terminals, Plan.chooseWithin g.registry (depth + 1)
          (Plan.routed (c :: cs) [t]) = (next t).move t := by
        intro t ht
        obtain ⟨e, he, haction, hhead⟩ := hacted (hnext t ht)
        rw [hstand.chooseWithin_routed (hc.action_unique hmem hconflict) he hhead, haction]
      rw [Plan.chooseWithin_read hpairs hall hahead hdistinct, hterminals,
        List.map_congr_left fun t ht => by rw [hroute t ht]]
      refine .read next fun t x => ⟨fun hx => ?_, ?_⟩
      · have ht := (hc.mem_state_terminals hmem).2 ⟨x, hx⟩
        exact ⟨ht, hc.action_unique hmem hconflict hx (hnext t ht)⟩
      · rintro ⟨ht, rfl⟩
        exact hnext t ht

/-- A plan leaves a conflict exactly if the state has one, or no action. -/
theorem hasError_planOf_iff : (a.planOf g i).hasError ↔ s.hasConflict ∨ s.actions = [] := by
  constructor
  · intro herror
    by_contra hn
    rw [not_or, Bool.not_eq_true] at hn
    rw [(settles_planOf hc hpairs hd hs hn.1 hn.2).hasError_eq_false] at herror
    cases herror
  · rintro (hconflict | hnone)
    · exact hasError_planOf hc hpairs hd hs hconflict
    · rw [planOf, (hc.candidates_eq_nil hs).2 hnone]
      rfl

end

end Automaton

namespace Table

/-- **Unresolved means conflicting.** In a grammar that passed its checks, where no terminal is
possibly empty and different terminals of the rules are distinct: a state has a conflict if two
actions are on one terminal, and its plan leaves a conflict exactly if it has one or no action.
Every other plan settles its state.  So the states that are left unresolved are those with a
conflict and those without actions. -/
theorem unresolved_exact {r : Registry} {start : Handle} {rules : List Rule}
    {kinds : List (Handle × Kind)} {g : Grammar} (h : Grammar.ofRules r start rules kinds = .ok g)
    (hpairs : g.registry.emptyPairs = [])
    (hd : ∀ t ∈ g.terminals, ∀ u ∈ g.terminals, t ≠ u → g.registry.distinct t u) :
    (∀ (i : Nat) (row : TableRow), (ofGrammar g).rows[i]? = some row →
      (row.hasConflict ↔ ∃ t x y, Maps row.actions t x ∧ Maps row.actions t y ∧ x ≠ y) ∧
        (row.plan.hasError ↔ row.hasConflict ∨ row.actions = []) ∧
        (row.plan.hasError = false → Plan.Settles row.toState row.plan)) ∧
      ∀ i, i ∈ (ofGrammar g).unresolved ↔ i ∈ (ofGrammar g).conflicts ∨
        ∃ row, (ofGrammar g).rows[i]? = some row ∧ row.actions = [] := by
  have hc := Automaton.canonical (Grammar.WellFormed.of_ofRules h)
  have hiff : ∀ {i : Nat} {row : TableRow}, (ofGrammar g).rows[i]? = some row →
      (row.plan.hasError ↔ row.hasConflict ∨ row.actions = []) := by
    intro i row hi
    obtain ⟨hs, hplan⟩ := eq_of_getElem?_rows hi
    rw [hplan]
    exact Automaton.hasError_planOf_iff hc hpairs hd hs
  refine ⟨fun i row hi => ⟨?_, hiff hi, fun hnone => ?_⟩, fun i => ?_⟩
  · exact hc.hasConflict_iff (List.mem_of_getElem? (eq_of_getElem?_rows hi).1)
  · obtain ⟨hs, hplan⟩ := eq_of_getElem?_rows hi
    have hn := (hiff hi).not.1 (by simp [hnone])
    rw [not_or, Bool.not_eq_true] at hn
    rw [hplan]
    exact Automaton.settles_planOf hc hpairs hd hs hn.1 hn.2
  · rw [unresolved, conflicts, mem_statesWhere, mem_statesWhere, ← exists_or]
    refine exists_congr fun row => ?_
    rw [← and_or_left]
    exact and_congr_right fun hi => hiff hi

/-- An operator `x` without an associativity, between operands `y`. -/
def ambiguous : Grammar where
  registry := .ofLists ["E", "Start'"] [["x"], ["y"]] [[⟨-1⟩, ⟨-2⟩]] []
  rules := [⟨⟨2⟩, [⟨1⟩]⟩, ⟨⟨1⟩, [⟨1⟩, ⟨-1⟩, ⟨1⟩]⟩, ⟨⟨1⟩, [⟨-2⟩]⟩]
  start := ⟨1⟩
  kinds := [(⟨2⟩, .transparent)]

theorem ambiguous_ofRules : Grammar.ofRules
    (.ofLists ["E"] [["x"], ["y"]] [[⟨-1⟩, ⟨-2⟩]] []) ⟨1⟩
    [⟨⟨1⟩, [⟨1⟩, ⟨-1⟩, ⟨1⟩]⟩, ⟨⟨1⟩, [⟨-2⟩]⟩] [] = .ok ambiguous :=
  Grammar.eq_ok_of_registry rfl (Registry.eq_of_lists rfl rfl rfl rfl rfl)

/-- Behind two operands there is a conflict on the operator, and the plan leaves it. -/
theorem four_mem_unresolved : 4 ∈ (ofGrammar ambiguous).unresolved := by
  exact ((unresolved_exact ambiguous_ofRules rfl (by decide)).2 4).2 (.inl (by decide +kernel))

end Table

end Mixfix
