import Mathlib.Data.Finset.Powerset
import Mathlib.Tactic.Ring
import Mixfix.Automaton.Collection
import Mixfix.Proofs.Automaton.Closure

/-!
# The canonical collection is complete

The survey of the states opens every set it finds: the sets are different ascending lists of the
items of the grammar, so there are at most as many as the survey may open.  Hence every state has
exactly the transitions that its items ask for, and each leads to the closure of the items moved
over the symbol.

* `Automaton.Survey.Sound`: what opening a set keeps.
* `Automaton.Survey.length_sets_le`: the number of sets is in the bound of the survey.
* `Automaton.canonical`: the states and transitions of the finished automaton.
-/

namespace Mixfix

open Ascending

namespace Automaton

variable {g : Grammar}

/-! ### The number of sets -/

/-- Every item that a proper set may have. -/
def itemUniverse (g : Grammar) : List Item :=
  g.rules.zipIdx.flatMap fun (rule, id) =>
    (List.range (rule.rhs.length + 1)).flatMap fun dot =>
      (Handle.endOfInput :: g.uses).map fun lookahead => Item.mk id dot lookahead

theorem mem_itemUniverse {items : ItemSet} (h : items.Proper g) {item : Item} (hi : item ∈ items) :
    item ∈ itemUniverse g := by
  obtain ⟨rule, hr, hd⟩ := h.dot_le item hi
  refine List.mem_flatMap.2 ⟨(rule, item.rule), List.mk_mem_zipIdx_iff_getElem?.2 hr, ?_⟩
  exact List.mem_flatMap.2 ⟨item.dot, List.mem_range.2 (Nat.lt_succ_of_le hd),
    List.mem_map_of_mem (h.lookahead item hi)⟩

theorem length_itemUniverse (g : Grammar) : (itemUniverse g).length =
    (g.size + g.rules.length) * (g.uses.length + 1) := by
  have hrows : (itemUniverse g).length =
      (g.rules.map fun rule => (rule.rhs.length + 1) * (g.uses.length + 1)).sum := by
    have hfst := List.zipIdx_map_fst 0 g.rules
    conv_rhs => rw [← hfst, List.map_map]
    simp [itemUniverse, List.length_flatMap, Function.comp_def]
  rw [hrows, Grammar.size, List.length_flatMap]
  induction g.rules with
  | nil => simp
  | cons rule rules ih =>
    simp only [List.map_cons, List.sum_cons, List.length_cons, ih]
    ring

theorem length_itemUniverse_le (g : Grammar) : (itemUniverse g).length ≤ itemCount g := by
  rw [length_itemUniverse, itemCount]
  exact Nat.mul_le_mul_left _ (Nat.succ_le_succ g.length_uses_le)

namespace Survey

/-- Different proper sets of items are no more than the sets of all items. -/
theorem length_sets_le {sets : List (ItemSet × Option Handle)} (hd : (sets.map (·.1)).Nodup)
    (hp : ∀ x ∈ sets, x.1.Proper g) : sets.length ≤ 2 ^ itemCount g := by
  have hinj : ((sets.map (·.1)).map List.toFinset).Nodup := by
    refine hd.map_on fun x hx y hy hxy => ?_
    obtain ⟨x, hx', rfl⟩ := List.mem_map.1 hx
    obtain ⟨y, hy', rfl⟩ := List.mem_map.1 hy
    refine (hp x hx').sorted.ext (hp y hy').sorted fun item => ?_
    rw [← List.mem_toFinset, hxy, List.mem_toFinset]
  have hsub : ∀ s ∈ (sets.map (·.1)).map List.toFinset,
      s ∈ (itemUniverse g).toFinset.powerset.toList := by
    intro s hs
    obtain ⟨items, hitems, rfl⟩ := List.mem_map.1 hs
    obtain ⟨x, hx, rfl⟩ := List.mem_map.1 hitems
    rw [Finset.mem_toList, Finset.mem_powerset]
    intro item hitem
    exact List.mem_toFinset.2 (mem_itemUniverse (hp x hx) (List.mem_toFinset.1 hitem))
  calc sets.length = ((sets.map (·.1)).map List.toFinset).length := by
        rw [List.length_map, List.length_map]
    _ ≤ (itemUniverse g).toFinset.powerset.toList.length :=
        hinj.length_le_of_subset fun s => hsub s
    _ = 2 ^ (itemUniverse g).toFinset.card := by
        rw [Finset.length_toList, Finset.card_powerset]
    _ ≤ 2 ^ itemCount g :=
        Nat.pow_le_pow_right (by decide)
          ((List.toFinset_card_le _).trans (length_itemUniverse_le g))

/-! ### Opening sets -/

/-- The set with a number, if that number is in use. -/
def setAt? (sets : List (ItemSet × Option Handle)) (i : Nat) : Option ItemSet :=
  (sets[i]?).map (·.1)

theorem setAt?_append {sets : List (ItemSet × Option Handle)} {i : Nat} {items : ItemSet}
    (h : setAt? sets i = some items) (more : List (ItemSet × Option Handle)) :
    setAt? (sets ++ more) i = some items := by
  obtain ⟨x, hx, rfl⟩ := Option.map_eq_some_iff.1 h
  rw [setAt?, List.getElem?_append_left (List.getElem?_eq_some_iff.1 hx).1, hx]
  rfl

/-- Placing a set numbers it, and adds nothing but that set. -/
theorem place_spec (sets : List (ItemSet × Option Handle)) (items : ItemSet) (symbol : Handle) :
    ∃ more, (place sets items symbol).2 = sets ++ more ∧
      setAt? (sets ++ more) (place sets items symbol).1 = some items ∧
      ((sets.map (·.1)).Nodup → ((sets ++ more).map (·.1)).Nodup) ∧
      ∀ x ∈ more, x.1 = items := by
  unfold place
  split
  · next i hi =>
    obtain ⟨hlt, heq, -⟩ := List.findIdx?_eq_some_iff_getElem.1 hi
    refine ⟨[], (List.append_nil sets).symm, ?_, fun h => by rwa [List.append_nil], by simp⟩
    rw [List.append_nil, setAt?, List.getElem?_eq_getElem hlt]
    exact congrArg some (eq_of_beq heq)
  · next hnone =>
    refine ⟨[(items, some symbol)], rfl, by simp [setAt?], fun h => ?_, by simp⟩
    rw [List.map_append, List.map_singleton]
    refine List.nodup_append.2 ⟨h, by simp, fun x hx y hy => ?_⟩
    obtain ⟨e, he, rfl⟩ := List.mem_map.1 hx
    rw [List.mem_singleton.1 hy]
    have hne := List.findIdx?_eq_none_iff.1 hnone e he
    exact fun heq => by simp [heq] at hne

theorem transitions_cons (first : First) (items : ItemSet) (symbol : Handle) (symbols : List Handle)
    (sets : List (ItemSet × Option Handle)) :
    Survey.transitions g first items (symbol :: symbols) sets =
      ((symbol, (place sets (items.goto g first symbol) symbol).1) ::
        (Survey.transitions g first items symbols
          (place sets (items.goto g first symbol) symbol).2).1,
        (Survey.transitions g first items symbols
          (place sets (items.goto g first symbol) symbol).2).2) := rfl

/-- The transitions of a set lead, over each symbol, to the set moved over it. -/
theorem transitions_spec (items : ItemSet) (symbols : List Handle)
    (sets : List (ItemSet × Option Handle)) :
    ∃ more, (Survey.transitions g (First.ofGrammar g) items symbols sets).2 = sets ++ more ∧
      (Survey.transitions g (First.ofGrammar g) items symbols sets).1.map (·.1) = symbols ∧
      (∀ e ∈ (Survey.transitions g (First.ofGrammar g) items symbols sets).1,
        setAt? (sets ++ more) e.2 = some (items.goto g (First.ofGrammar g) e.1)) ∧
      ((sets.map (·.1)).Nodup → ((sets ++ more).map (·.1)).Nodup) ∧
      ∀ x ∈ more, ∃ s, x.1 = items.goto g (First.ofGrammar g) s := by
  induction symbols generalizing sets with
  | nil =>
    exact ⟨[], (List.append_nil sets).symm, rfl, fun _ h => (nomatch h),
      fun h => by rwa [List.append_nil], fun _ h => nomatch h⟩
  | cons symbol symbols ih =>
    obtain ⟨more, hsets, hat, hnodup, hmore⟩ :=
      place_spec sets (items.goto g (First.ofGrammar g) symbol) symbol
    obtain ⟨more', hsets', hkeys, hat', hnodup', hmore'⟩ := ih (sets ++ more)
    rw [transitions_cons, hsets]
    rw [List.append_assoc] at hsets' hat' hnodup'
    refine ⟨more ++ more', hsets', congrArg (symbol :: ·) hkeys, fun e he => ?_,
      fun h => hnodup' (hnodup h), fun x hx => ?_⟩
    · rcases List.mem_cons.1 he with rfl | he
      · rw [← List.append_assoc]
        exact setAt?_append hat more'
      · exact hat' e he
    · rcases List.mem_append.1 hx with hx | hx
      · exact ⟨symbol, hmore x hx⟩
      · exact hmore' x hx

/-- What a survey knows: different proper sets with the initial one in front, and the transitions of
those that were opened. -/
structure Sound (g : Grammar) (v : Survey) : Prop where
  start : setAt? v.sets 0 =
    some (ItemSet.closure g (First.ofGrammar g) [⟨0, 0, .endOfInput⟩])
  distinct : (v.sets.map (·.1)).Nodup
  proper : ∀ x ∈ v.sets, x.1.Proper g
  closed : ∀ x ∈ v.sets, ∃ kernel, x.1 = ItemSet.closure g (First.ofGrammar g) kernel
  opened_le : v.edges.length ≤ v.sets.length
  opened : ∀ {i : Nat} {edges : List (Handle × Nat)} {items : ItemSet}, v.edges[i]? = some edges →
    setAt? v.sets i = some items → edges.map (·.1) = items.expected g ∧
      ∀ e ∈ edges, setAt? v.sets e.2 = some (items.goto g (First.ofGrammar g) e.1)

/-- Opening the next set keeps what a survey knows. -/
theorem Sound.open (hg : g.WellFormed) {v : Survey} (h : Sound g v) {items : ItemSet}
    {entry : Option Handle} (hn : v.sets[v.edges.length]? = some (items, entry)) :
    Sound g ⟨(Survey.transitions g (First.ofGrammar g) items (items.expected g) v.sets).2,
      v.edges ++
        [(Survey.transitions g (First.ofGrammar g) items (items.expected g) v.sets).1]⟩ := by
  obtain ⟨more, hsets, hkeys, hat, hnodup, hmore⟩ :=
    transitions_spec (g := g) items (items.expected g) v.sets
  rw [hsets]
  have hproper : items.Proper g := h.proper _ (List.mem_of_getElem? hn)
  have hlt : v.edges.length < v.sets.length := (List.getElem?_eq_some_iff.1 hn).1
  refine ⟨setAt?_append h.start more, hnodup h.distinct, fun x hx => ?_, fun x hx => ?_, ?_, ?_⟩
  · rcases List.mem_append.1 hx with hx | hx
    · exact h.proper x hx
    · obtain ⟨s, hs⟩ := hmore x hx
      rw [hs]
      exact hproper.goto hg s
  · rcases List.mem_append.1 hx with hx | hx
    · exact h.closed x hx
    · obtain ⟨s, hs⟩ := hmore x hx
      exact ⟨_, hs⟩
  · simp only [List.length_append, List.length_singleton]
    omega
  · intro i edges items' he hi
    have hilt : i < (v.edges ++ [_]).length := (List.getElem?_eq_some_iff.1 he).1
    rw [List.length_append, List.length_singleton] at hilt
    obtain ⟨x, hx⟩ : ∃ x, v.sets[i]? = some x := ⟨_, List.getElem?_eq_getElem (by omega)⟩
    have hx' : setAt? v.sets i = some x.1 := by rw [setAt?, hx]; rfl
    cases (setAt?_append hx' more).symm.trans hi
    by_cases hil : i < v.edges.length
    · -- The sets behind old transitions are where they were.
      rw [List.getElem?_append_left hil] at he
      obtain ⟨hk, hs⟩ := h.opened he hx'
      exact ⟨hk, fun e he' => setAt?_append (hs e he') more⟩
    · obtain rfl : i = v.edges.length := by omega
      rw [List.getElem?_concat_length] at he
      cases he
      cases hn.symm.trans hx
      exact ⟨hkeys, hat⟩

theorem Sound.run (hg : g.WellFormed) (bound : Nat) {v : Survey} (h : Sound g v) :
    Sound g (Survey.run g (First.ofGrammar g) bound v) := by
  induction bound generalizing v with
  | zero => exact h
  | succ bound ih =>
    rw [Survey.run]
    split
    · exact h
    · next hn => exact ih (h.open hg hn)

/-- A survey that may open as many sets as there can be opens all that it finds. -/
theorem Sound.run_complete (hg : g.WellFormed) {bound : Nat} {v : Survey} (h : Sound g v)
    (hb : 2 ^ itemCount g ≤ v.edges.length + bound) :
    (Survey.run g (First.ofGrammar g) bound v).edges.length =
      (Survey.run g (First.ofGrammar g) bound v).sets.length := by
  induction bound generalizing v with
  | zero =>
    -- The bound is used up only if every possible set has been opened.
    have := length_sets_le h.distinct h.proper
    exact le_antisymm h.opened_le (this.trans hb)
  | succ bound ih =>
    rw [Survey.run]
    split
    · next hn => exact le_antisymm h.opened_le (List.getElem?_eq_none_iff.1 hn)
    · next hn =>
      refine ih (h.open hg hn) ?_
      rw [List.length_append, List.length_singleton]
      omega

end Survey

/-- The finished survey of a grammar. -/
def surveyOf (g : Grammar) : Survey :=
  Survey.run g (First.ofGrammar g) (2 ^ itemCount g)
    ⟨[(ItemSet.closure g (First.ofGrammar g) [⟨0, 0, .endOfInput⟩], none)], []⟩

theorem sound_initial (hg : g.WellFormed) :
    Survey.Sound g ⟨[(ItemSet.closure g (First.ofGrammar g) [⟨0, 0, .endOfInput⟩], none)], []⟩ := by
  refine ⟨rfl, by simp, fun x hx => ?_, fun x hx => ?_, by simp, by simp⟩
  · rw [List.mem_singleton.1 hx]
    obtain ⟨lhs, hr⟩ := hg.augmented
    refine ItemSet.Proper.closure hg (fun item hi => ?_) fun item hi => ?_
    · rw [List.mem_singleton.1 hi]
      exact ⟨_, hr, Nat.zero_le _⟩
    · rw [List.mem_singleton.1 hi]
      exact List.mem_cons_self
  · cases List.mem_singleton.1 hx
    exact ⟨_, rfl⟩

theorem sound_surveyOf (hg : g.WellFormed) : Survey.Sound g (surveyOf g) :=
  (sound_initial hg).run hg _

theorem length_edges_surveyOf (hg : g.WellFormed) :
    (surveyOf g).edges.length = (surveyOf g).sets.length :=
  (sound_initial hg).run_complete hg (by simp)

/-! ### The finished automaton -/

theorem ofGrammar_eq (g : Grammar) : ofGrammar g =
    (surveyOf g).sets.zipWith (fun (items, entry) edges =>
      ⟨items, edges, entry, State.actionsOf g items edges⟩) (surveyOf g).edges := rfl

theorem getElem?_ofGrammar {i : Nat} {s : State} (h : (ofGrammar g)[i]? = some s) :
    Survey.setAt? (surveyOf g).sets i = some s.items ∧ (surveyOf g).edges[i]? = some s.edges ∧
      s.actions = State.actionsOf g s.items s.edges := by
  rw [ofGrammar_eq, List.getElem?_zipWith] at h
  rw [Survey.setAt?]
  cases hx : (surveyOf g).sets[i]? with
  | none => rw [hx] at h; cases h
  | some x =>
    cases he : (surveyOf g).edges[i]? with
    | none => rw [hx, he] at h; cases h
    | some edges =>
      rw [hx, he] at h
      cases h
      exact ⟨rfl, rfl, rfl⟩

theorem exists_of_setAt? (hg : g.WellFormed) {i : Nat} {items : ItemSet}
    (h : Survey.setAt? (surveyOf g).sets i = some items) :
    ∃ s, (ofGrammar g)[i]? = some s ∧ s.items = items := by
  obtain ⟨x, hx, rfl⟩ := Option.map_eq_some_iff.1 h
  have hlt : i < (surveyOf g).edges.length := by
    rw [length_edges_surveyOf hg]
    exact (List.getElem?_eq_some_iff.1 hx).1
  refine ⟨⟨x.1, (surveyOf g).edges[i], x.2, State.actionsOf g x.1 (surveyOf g).edges[i]⟩, ?_, rfl⟩
  rw [ofGrammar_eq, List.getElem?_zipWith, hx, List.getElem?_eq_getElem hlt]

/-- The states and transitions of a canonical collection. -/
structure Canonical (g : Grammar) (a : Automaton) : Prop where
  /-- The first state is the closure of the augmented item. -/
  start : ∃ s, a[0]? = some s ∧
    s.items = ItemSet.closure g (First.ofGrammar g) [⟨0, 0, .endOfInput⟩]
  proper : ∀ {s : State}, s ∈ a → s.items.Proper g
  closed : ∀ {s : State}, s ∈ a → ∃ kernel, s.items = ItemSet.closure g (First.ofGrammar g) kernel
  actions : ∀ {s : State}, s ∈ a → s.actions = State.actionsOf g s.items s.edges
  /-- The transitions are those over the symbols that the items expect. -/
  keys : ∀ {s : State}, s ∈ a → s.edges.map (·.1) = s.items.expected g
  /-- A transition leads to the items moved over its symbol. -/
  edge : ∀ {s : State}, s ∈ a → ∀ {X : Handle} {j : Nat}, (X, j) ∈ s.edges →
    ∃ t, a[j]? = some t ∧ t.items = s.items.goto g (First.ofGrammar g) X

/-- **The canonical collection** of a well-formed grammar: every state has the transitions that its
items ask for, and they lead to states. -/
theorem canonical (hg : g.WellFormed) : Canonical g (ofGrammar g) := by
  have hsound := sound_surveyOf hg
  refine
    { start := exists_of_setAt? hg hsound.start
      proper := fun {s} hs => ?_
      closed := fun {s} hs => ?_
      actions := fun {s} hs => ?_
      keys := fun {s} hs => ?_
      edge := fun {s} hs X j he => ?_ }
  all_goals
    obtain ⟨i, hi⟩ := List.getElem?_of_mem hs
    obtain ⟨hitems, hedges, hactions⟩ := getElem?_ofGrammar hi
  · obtain ⟨x, hx, heq⟩ := Option.map_eq_some_iff.1 hitems
    exact heq ▸ hsound.proper x (List.mem_of_getElem? hx)
  · obtain ⟨x, hx, heq⟩ := Option.map_eq_some_iff.1 hitems
    exact heq ▸ hsound.closed x (List.mem_of_getElem? hx)
  · exact hactions
  · exact (hsound.opened hedges hitems).1
  · exact exists_of_setAt? hg ((hsound.opened hedges hitems).2 (X, j) he)

end Automaton

end Mixfix
