import Mixfix.Proofs.Plan.Followers

/-!
# Plans select the right candidate

A row of terminals stands for rows of tokens: a possibly empty terminal for nothing or for a token
of its non-empty variant. A plan without conflicts keeps the candidate that suits the tokens ahead
through every split and read, so it comes to the move of that candidate.

* `Registry.Spelt`: the tokens that a row of terminals may stand for.
* `Plan.Comes`: the move that a plan comes to under the tokens ahead.
* `Plan.Suits`: a candidate suits the tokens ahead.
* `Plan.exists_comes`: a plan without conflicts comes to the move of the candidate that suits.
* `Automaton.comes_shift`, `Automaton.comes_reduce`, `Automaton.comes_accept`: the plan of a state
  comes to each of its actions.
-/

namespace Mixfix

namespace Registry

/-- The terminal of the token that is taken for a terminal, if one is. -/
def tokenOf (r : Registry) (t : Handle) : Handle := (r.nonEmptyOf t).getD t

/-- A row of terminals and the terminals of tokens that it may stand for. -/
inductive Spelt (r : Registry) : List Handle → List Handle → Prop where
  | nil : Spelt r [] []
  | token {t : Handle} {word spelling : List Handle} : Spelt r word spelling →
      Spelt r (t :: word) (r.tokenOf t :: spelling)
  /-- A possibly empty terminal stands for nothing. -/
  | empty {t : Handle} {word spelling : List Handle} : (r.nonEmptyOf t).isSome →
      Spelt r word spelling → Spelt r (t :: word) spelling

/-- The tokens begin with some that the row of terminals may stand for. -/
def Begins (r : Registry) (word spelling : List Handle) : Prop :=
  ∃ front back, spelling = front ++ back ∧ r.Spelt word front

variable {r : Registry} {t u : Handle} {word spelling : List Handle}

theorem tokenOf_of_none (h : r.nonEmptyOf t = none) : r.tokenOf t = t := by rw [tokenOf, h]; rfl

theorem tokenOf_of_some (h : r.nonEmptyOf t = some u) : r.tokenOf t = u := by rw [tokenOf, h]; rfl

theorem Spelt.append {word' spelling' : List Handle} (h : r.Spelt word spelling)
    (h' : r.Spelt word' spelling') : r.Spelt (word ++ word') (spelling ++ spelling') := by
  induction h with
  | nil => exact h'
  | token _ ih => exact .token ih
  | empty ht _ ih => exact .empty ht ih

theorem begins_nil : r.Begins [] spelling := ⟨[], spelling, rfl, .nil⟩

theorem begins_cons : r.Begins (t :: word) spelling ↔
    (∃ rest, spelling = r.tokenOf t :: rest ∧ r.Begins word rest) ∨
      (r.nonEmptyOf t).isSome ∧ r.Begins word spelling := by
  constructor
  · rintro ⟨front, back, rfl, h⟩
    cases h with
    | token h => exact .inl ⟨_, rfl, _, back, rfl, h⟩
    | empty ht h => exact .inr ⟨ht, _, back, rfl, h⟩
  · rintro (⟨rest, rfl, front, back, rfl, h⟩ | ⟨ht, front, back, rfl, h⟩)
    · exact ⟨_, back, rfl, .token h⟩
    · exact ⟨front, back, rfl, .empty ht h⟩

theorem Spelt.begins (h : r.Spelt word spelling) (n : Nat) : r.Begins (word.take n) spelling := by
  induction h generalizing n with
  | nil =>
    rw [List.take_nil]
    exact begins_nil
  | token _ ih =>
    cases n with
    | zero => exact begins_nil
    | succ n => exact begins_cons.2 (.inl ⟨_, rfl, ih n⟩)
  | empty ht _ ih =>
    cases n with
    | zero => exact begins_nil
    | succ n => exact begins_cons.2 (.inr ⟨ht, ih n⟩)

end Registry

namespace Plan

/-- Under the tokens ahead the plan comes to the move. -/
inductive Comes : Plan → List Handle → Plan → Prop where
  | leaf (c : Candidate) (word : List Handle) : Comes c.leaf word c.leaf
  | read {branches : List (List Handle × Plan)} {t : Handle} {word : List Handle}
      {plan leaf : Plan} : branch? branches t = some plan → Comes plan word leaf →
      Comes (.read branches) (t :: word) leaf

theorem mem_of_branch? {branches : List (List Handle × Plan)} {t : Handle} {plan : Plan}
    (h : branch? branches t = some plan) : ∃ cls, (cls, plan) ∈ branches ∧ t ∈ cls := by
  obtain ⟨⟨cls, plan'⟩, hfind, rfl⟩ := Option.map_eq_some_iff.1 h
  have hcontains := List.find?_some hfind
  exact ⟨cls, List.mem_of_find?_eq_some hfind, List.contains_iff_mem.1 hcontains⟩

theorem exists_branch? {classes : List (List Handle)} {t : Handle} (next : List Handle → Plan)
    (h : ∃ cls ∈ classes, t ∈ cls) :
    ∃ cls ∈ classes, t ∈ cls ∧
      branch? (classes.map fun cls => (cls, next cls)) t = some (next cls) := by
  obtain ⟨cls, hcls, ht⟩ := h
  have hsome : (classes.find? (·.contains t)).isSome :=
    List.find?_isSome.2 ⟨cls, hcls, List.contains_iff_mem.2 ht⟩
  obtain ⟨found, hfound⟩ := Option.isSome_iff_exists.1 hsome
  have hcontains := List.find?_some hfound
  refine ⟨found, List.mem_of_find?_eq_some hfound, List.contains_iff_mem.1 hcontains, ?_⟩
  rw [branch?, List.find?_map]
  exact congrArg _ (congrArg _ hfound)

theorem Comes.mem_leaves {plan leaf : Plan} {word : List Handle} (h : Comes plan word leaf) :
    leaf ∈ plan.leaves := by
  induction h with
  | leaf c word =>
    rw [leaves_leaf]
    exact List.mem_singleton_self _
  | read hbranch _ ih =>
    obtain ⟨cls, hmem, -⟩ := mem_of_branch? hbranch
    rw [leaves, mem_leavesAll]
    exact ⟨_, hmem, ih⟩

/-- A candidate suits the tokens ahead. If the terminal that its shift moves over takes a token,
then that token is the next one, or it has been read. -/
inductive Suits (r : Registry) (taken : Prop) : Candidate → List Handle → Prop where
  | past {c : Candidate} {word : List Handle} : r.Begins c.lookahead word →
      (taken → c.own = false ∧ c.munch ≠ 0) → Suits r taken c word
  | own {c : Candidate} {t : Handle} {ahead word : List Handle} : c.lookahead = t :: ahead →
      r.Begins ahead word → c.munch ≠ 0 → Suits r taken c (r.tokenOf t :: word)

section

variable {r : Registry} {taken : Prop} {c : Candidate} {word : List Handle}
  (hvariant : ∀ {t u}, r.nonEmptyOf t = some u → r.nonEmptyOf u = none)

theorem Suits.munch (h : Suits r taken c word) (ht : taken) : c.munch ≠ 0 := by
  cases h with
  | past _ htaken => exact (htaken ht).2
  | own _ _ hmunch => exact hmunch

include hvariant in
/-- One of the two ways to take a possibly empty terminal suits. -/
theorem Suits.split (h : Suits r taken c word) :
    ∃ d ∈ splitEmpty r c, d.action = c.action ∧ Suits r taken d word := by
  cases hempty : emptyAhead r c with
  | none =>
    rw [splitEmpty, hempty]
    exact ⟨c, List.mem_singleton_self _, rfl, h⟩
  | some u =>
    obtain ⟨t, hhead, hu⟩ := Option.bind_eq_some_iff.1 hempty
    obtain ⟨ahead, hahead⟩ : ∃ ahead, c.lookahead = t :: ahead := by
      cases hl : c.lookahead with
      | nil => rw [hl] at hhead; cases hhead
      | cons t' ahead => rw [hl] at hhead; cases hhead; exact ⟨ahead, rfl⟩
    have htu : r.tokenOf t = u := Registry.tokenOf_of_some hu
    have huu : r.tokenOf u = u := Registry.tokenOf_of_none (hvariant hu)
    rw [splitEmpty, hempty]
    cases h with
    | past hbegins htaken =>
      rw [hahead, Registry.begins_cons] at hbegins
      rcases hbegins with ⟨rest, rfl, hbegins⟩ | ⟨-, hbegins⟩
      · refine ⟨_, List.mem_cons_of_mem _ (List.mem_singleton_self _), rfl, .past ?_ htaken⟩
        rw [hahead]
        exact Registry.begins_cons.2 (.inl ⟨rest, by rw [htu, huu], hbegins⟩)
      · refine ⟨_, List.mem_cons_self, rfl, .past ?_ fun ht => ⟨rfl, ?_⟩⟩
        · show r.Begins c.lookahead.tail word
          rw [hahead]
          exact hbegins
        · obtain ⟨hown, hmunch⟩ := htaken ht
          simpa [hown] using hmunch
    | @own t' ahead' word hahead' hbegins hmunch =>
      cases hahead.symm.trans hahead'
      refine ⟨_, List.mem_cons_of_mem _ (List.mem_singleton_self _), rfl, ?_⟩
      rw [htu, ← huu]
      refine .own ?_ hbegins hmunch
      rw [huu, hahead]
      rfl

/-- With nothing possibly empty ahead, what suits has the next token ahead, and suits the tokens
after it. -/
theorem Suits.read (h : Suits r taken c word) (hempty : emptyAhead r c = none)
    (hne : c.lookahead ≠ []) :
    ∃ t rest, word = t :: rest ∧ c.lookahead.head? = some t ∧ Suits r taken c.consume rest := by
  obtain ⟨t, ahead, hahead⟩ := List.exists_cons_of_ne_nil hne
  have hnone : r.nonEmptyOf t = none := by
    rw [emptyAhead, hahead] at hempty
    exact hempty
  have htoken := Registry.tokenOf_of_none hnone
  have hconsume : c.consume.lookahead = ahead := by
    show c.lookahead.tail = ahead
    rw [hahead]
    rfl
  cases h with
  | past hbegins htaken =>
    rw [hahead, Registry.begins_cons, hnone, htoken] at hbegins
    obtain ⟨rest, rfl, hrest⟩ := hbegins.resolve_right fun h => Bool.false_ne_true h.1
    refine ⟨t, rest, rfl, by rw [hahead]; rfl, .past (by rw [hconsume]; exact hrest) fun ht => ?_⟩
    exact ⟨rfl, (htaken ht).2⟩
  | @own t' ahead' rest hahead' hbegins hmunch =>
    cases hahead.symm.trans hahead'
    refine ⟨t, rest, by rw [htoken], by rw [hahead]; rfl, .past ?_ fun _ => ⟨rfl, hmunch⟩⟩
    rw [hconsume]
    exact hbegins

theorem someError_eq_false {branches : List (List Handle × Plan)} :
    someError branches = false ↔ ∀ branch ∈ branches, branch.2.hasError = false := by
  induction branches with
  | nil => simp [someError]
  | cons branch branches ih =>
    rw [someError, Bool.or_eq_false_iff, ih, List.forall_mem_cons]

include hvariant in
/-- A plan without conflicts comes to the move of a candidate that suits the tokens ahead. -/
theorem exists_comes {depth : Nat} {cs : List Candidate}
    (hplan : (chooseWithin r depth cs).hasError = false) (hc : c ∈ cs)
    (h : Suits r taken c word) :
    ∃ d : Candidate, Comes (chooseWithin r depth cs) word d.leaf ∧ d.action = c.action ∧
      (taken → d.munch ≠ 0) := by
  induction depth generalizing cs c word with
  | zero =>
    cases cs with
    | nil => cases hc
    | cons e cs => cases hplan
  | succ depth ih =>
    cases cs with
    | nil => cases hc
    | cons e cs =>
      by_cases hall : ∀ e' ∈ cs, e.agreesWith e'
      · -- All candidates make one move.
        rw [chooseWithin_of_agree hall]
        refine ⟨e, .leaf e word, ?_⟩
        rcases List.mem_cons.1 hc with rfl | hc
        · exact ⟨rfl, h.munch⟩
        · have hagree := hall c hc
          simp only [Candidate.agreesWith, Bool.and_eq_true, decide_eq_true_eq] at hagree
          exact ⟨hagree.1, hagree.2 ▸ h.munch⟩
      rw [chooseWithin, if_neg (by simpa using hall)] at hplan ⊢
      split at hplan
      · next hsome =>
        rw [if_pos hsome]
        obtain ⟨d, hd, haction, hsuits⟩ := h.split hvariant
        obtain ⟨d', hcomes, haction', hmunch⟩ := ih hplan
          (mem_unique.2 (List.mem_flatMap.2 ⟨c, hc, hd⟩)) hsuits
        exact ⟨d', hcomes, haction'.trans haction, hmunch⟩
      · next hnone =>
        rw [if_neg hnone]
        split at hplan
        · cases hplan
        · next hahead =>
          rw [if_neg hahead]
          rw [hasError, someError_eq_false] at hplan
          have hempty : emptyAhead r c = none := by
            rw [← Option.not_isSome_iff_eq_none]
            exact fun hsome => hnone (List.any_eq_true.2 ⟨c, hc, hsome⟩)
          have hne : c.lookahead ≠ [] := fun hnil =>
            hahead (List.any_eq_true.2 ⟨c, hc, List.isEmpty_iff.2 hnil⟩)
          obtain ⟨t, rest, rfl, hhead, hsuits⟩ := h.read hempty hne
          have hclass : ∃ cls ∈ classes r ((e :: cs).filterMap (·.lookahead.head?)), t ∈ cls :=
            exists_mem_classes.2 (List.mem_filterMap.2 ⟨c, hc, hhead⟩)
          obtain ⟨cls, hcls, ht, hbranch⟩ :=
            exists_branch? (fun cls => chooseWithin r depth (routed (e :: cs) cls)) hclass
          have hrouted : c.consume ∈ routed (e :: cs) cls :=
            mem_routed.2 ⟨c, hc, by simpa [hhead] using ht, rfl⟩
          obtain ⟨d, hcomes, haction, hmunch⟩ :=
            ih (hplan _ (List.mem_map_of_mem hcls)) hrouted hsuits
          exact ⟨d, .read hbranch hcomes, haction, hmunch⟩

end

end Plan

namespace Automaton

open Ascending Plan

variable {g : Grammar} {a : Automaton} {i j id : Nat} {s : State} {t u : Handle}
  {spelling : List Handle}

/-- The plan of a state comes to the action of a candidate that suits. -/
theorem exists_comes {taken : Prop}
    (hvariant : ∀ {t u}, g.registry.nonEmptyOf t = some u → g.registry.nonEmptyOf u = none)
    (hplan : (a.planOf g i).hasError = false) {c : Candidate} (hcand : c ∈ a.candidates g i)
    (h : Suits g.registry taken c spelling) :
    ∃ d : Candidate, Comes (a.planOf g i) spelling d.leaf ∧ d.action = c.action ∧
      (taken → d.munch ≠ 0) := by
  obtain ⟨depth, hdepth⟩ := Plan.exists_depth g.registry (a.candidates g i)
  rw [planOf, hdepth] at hplan ⊢
  exact Plan.exists_comes hvariant hplan hcand h

theorem mem_lookaheads {next : List Handle} (h : u ∈ next) : [t, u] ∈ lookaheads t next := by
  rw [lookaheads, if_neg (by simpa using List.ne_nil_of_mem h)]
  exact List.mem_map_of_mem h

section

variable (hvariant : ∀ {t u}, g.registry.nonEmptyOf t = some u → g.registry.nonEmptyOf u = none)
  (hs : a[i]? = some s) (hplan : (a.planOf g i).hasError = false)

include hvariant hs hplan

/-- Over a terminal that its target may come before a token of, the plan shifts. -/
theorem comes_shift (hc : Canonical g a) {taken : Prop} (he : (t, j) ∈ s.edges) (ht : t.isTerminal)
    (hu : u ∈ a.terminalsAt j)
    (h : Suits g.registry taken ⟨[t, u], .shift j, t, 1, true⟩ spelling) :
    ∃ munch, Comes (a.planOf g i) spelling (.shift j t munch) ∧ (taken → munch ≠ 0) := by
  have hmem := List.mem_of_getElem? hs
  have hcand : ⟨[t, u], .shift j, t, 1, true⟩ ∈ a.candidates g i :=
    (mem_candidates hs).2 ⟨t, .shift j, hc.maps_shift hmem he ht,
      List.mem_map_of_mem (mem_lookaheads hu)⟩
  obtain ⟨d, hcomes, haction, hmunch⟩ := exists_comes hvariant hplan hcand h
  have hleaf : d.leaf = .shift j d.terminal d.munch := by rw [Candidate.leaf, haction]
  rw [hleaf] at hcomes
  -- Every shift to the target is over the one symbol that leads to it.
  have hback := backed_of_mem_leaves hc hs hcomes.mem_leaves
  rw [hc.entry_unique hmem hmem hback.1 he] at hcomes
  exact ⟨d.munch, hcomes, hmunch⟩

/-- On a terminal before which it may reduce, the plan reduces. A possibly empty one counts with
the token after it. -/
theorem comes_reduce (hmaps : Maps s.actions t (.reduce id)) {ahead : List Handle}
    (hahead : ahead ∈ lookaheads t
      (if (g.registry.nonEmptyOf t).isSome then a.followers g i id t else []))
    (h : g.registry.Begins ahead spelling) : Comes (a.planOf g i) spelling (.reduce id) := by
  have hcand : ⟨ahead, .reduce id, t, 0, false⟩ ∈ a.candidates g i :=
    (mem_candidates hs).2 ⟨t, .reduce id, hmaps, List.mem_map_of_mem hahead⟩
  have hsuits : Suits g.registry False ⟨ahead, .reduce id, t, 0, false⟩ spelling :=
    .past h False.elim
  obtain ⟨d, hcomes, haction, -⟩ := exists_comes hvariant hplan hcand hsuits
  rwa [show d.leaf = .reduce id by rw [Candidate.leaf, haction]] at hcomes

/-- At the end of input behind the start symbol, the plan accepts. -/
theorem comes_accept (hmaps : Maps s.actions t .accept) (h : g.registry.Begins [t] spelling) :
    Comes (a.planOf g i) spelling .accept := by
  have hcand : ⟨[t], .accept, t, 0, false⟩ ∈ a.candidates g i :=
    (mem_candidates hs).2 ⟨t, .accept, hmaps, List.mem_singleton_self _⟩
  have hsuits : Suits g.registry False ⟨[t], .accept, t, 0, false⟩ spelling :=
    .past h False.elim
  obtain ⟨d, hcomes, haction, -⟩ := exists_comes hvariant hplan hcand hsuits
  rwa [show d.leaf = .accept by rw [Candidate.leaf, haction]] at hcomes

end

end Automaton

end Mixfix
