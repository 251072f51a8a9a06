import Mixfix.Proofs.Automaton.Collection

/-!
# Paths and actions of an automaton

A path leads from the first state over one symbol after another.  The symbols before the dot of an
item of its last state are the last symbols of the path, so a complete item finds its right-hand
side there.

* `Automaton.Path.before_dot`: the symbols before a dot are the last ones of the path.
* `Automaton.Path.origin_of_complete`: where a complete item began.
* `Automaton.Path.exists_goto`: the state where a complete item began has a transition over its
  nonterminal.
* `Automaton.Path.eq_nil_of_augmented`: the augmented rule begins at the start only.
* `State.maps_actionsOf`: the actions are those of the complete items and of the transitions over
  terminals.
-/

namespace Mixfix

open Ascending

/-- No rule but the augmented one uses the augmented nonterminal. -/
def Grammar.Reserved (g : Grammar) : Prop := ∀ {augmented : Rule}, g.rules[0]? = some augmented →
  ∀ rule ∈ g.rules.tail, augmented.lhs ∉ rule.rhs

theorem Grammar.Reserved.eq_zero {g : Grammar} (h : g.Reserved) {augmented : Rule}
    (hr : g.rules[0]? = some augmented) {id : Nat} {rule : Rule} (hrule : g.rules[id]? = some rule)
    (hmem : augmented.lhs ∈ rule.rhs) : id = 0 := by
  cases id with
  | zero => rfl
  | succ id =>
    refine absurd hmem (h hr rule (List.mem_of_getElem? (i := id) ?_))
    rw [List.getElem?_tail]
    exact hrule

namespace State

/-- The actions of a state: a reduction for every complete item, and a shift for every transition
over a terminal. -/
theorem maps_actionsOf {g : Grammar} {items : ItemSet} {edges : List (Handle × Nat)} {t : Handle}
    {action : Action} : Maps (actionsOf g items edges) t action ↔
      (∃ item ∈ items, item.isComplete g ∧ item.lookahead = t ∧
        (if item.rule = 0 then Action.accept else .reduce item.rule) = action) ∨
      ∃ j, (t, j) ∈ edges ∧ t.isTerminal ∧ action = .shift j := by
  rw [actionsOf, maps_foldl_insertAt (·.1) fun edge : Handle × Nat => Action.shift edge.2,
    maps_foldl_insertAt Item.lookahead fun item =>
      if item.rule = 0 then Action.accept else .reduce item.rule, or_comm, or_iff_left maps_nil]
  refine or_congr ?_ ?_
  · simp only [List.mem_filter, and_assoc]
  · constructor
    · rintro ⟨⟨X, j⟩, he, rfl, rfl⟩
      obtain ⟨he, ht⟩ := List.mem_filter.1 he
      exact ⟨j, he, ht, rfl⟩
    · rintro ⟨j, he, ht, rfl⟩
      exact ⟨(t, j), List.mem_filter.2 ⟨he, ht⟩, rfl, rfl⟩

theorem ordered_actionsOf (g : Grammar) (items : ItemSet) (edges : List (Handle × Nat)) :
    Ordered (actionsOf g items edges) :=
  ordered_foldl_insertAt _ _ _ (ordered_foldl_insertAt _ _ _ ordered_nil)

end State

namespace Automaton

variable {g : Grammar} {a : Automaton}

theorem Canonical.next?_eq_some (hc : Canonical g a) {s : State} (hs : s ∈ a) {X : Handle}
    {j : Nat} : s.next? X = some j ↔ (X, j) ∈ s.edges := by
  refine lookup_eq_some_iff_mem ?_
  rw [hc.keys hs]
  exact (sorted_ofList _).nodup

/-- A symbol that an item expects has a transition. -/
theorem Canonical.exists_edge (hc : Canonical g a) {s : State} (hs : s ∈ a) {item : Item}
    (hi : item ∈ s.items) {X : Handle} (hX : item.next? g = some X) : ∃ j, (X, j) ∈ s.edges := by
  have hmem : X ∈ s.edges.map (·.1) := by
    rw [hc.keys hs]
    exact ItemSet.mem_expected.2 ⟨item, hi, hX⟩
  obtain ⟨⟨X, j⟩, he, rfl⟩ := List.mem_map.1 hmem
  exact ⟨j, he⟩

/-- The dot of a complete item is behind its right-hand side. -/
theorem Canonical.dot_of_complete (hc : Canonical g a) {s : State} (hs : s ∈ a) {item : Item}
    (hitem : item ∈ s.items) (hcomplete : item.isComplete g) :
    item.dot = (g.rhs item.rule).length := by
  obtain ⟨rule, hr, hle⟩ := (hc.proper hs).dot_le item hitem
  have hrhs : g.rhs item.rule = rule.rhs := by rw [Grammar.rhs, hr]; rfl
  rw [Item.isComplete, List.isEmpty_iff, Item.rest, List.drop_eq_nil_iff] at hcomplete
  exact Nat.le_antisymm (hrhs ▸ hle) hcomplete

theorem follow?_append (a : Automaton) (i : Nat) (xs ys : List Handle) :
    a.follow? i (xs ++ ys) = (a.follow? i xs).bind fun j => a.follow? j ys := by
  induction xs generalizing i with
  | nil => rfl
  | cons X xs ih =>
    rw [List.cons_append, follow?, follow?]
    cases a[i]? with
    | none => rfl
    | some s =>
      show (s.next? X).bind _ = ((s.next? X).bind _).bind _
      cases s.next? X with
      | none => rfl
      | some j => exact ih j

theorem Canonical.follow?_edge (hc : Canonical g a) {i j : Nat} {s : State} (hs : a[i]? = some s)
    {X : Handle} (he : (X, j) ∈ s.edges) : a.follow? i [X] = some j := by
  have hnext := (hc.next?_eq_some (List.mem_of_getElem? hs)).2 he
  simp [follow?, hs, hnext]

/-- The states of a path from the first state, the last one first, and the symbols between them. -/
inductive Path (a : Automaton) : List Nat → List Handle → Prop where
  | start : Path a [0] []
  | step {i j : Nat} {states : List Nat} {symbols : List Handle} {s : State} {X : Handle} :
      Path a (i :: states) symbols → a[i]? = some s → (X, j) ∈ s.edges →
      Path a (j :: i :: states) (X :: symbols)

namespace Path

theorem length_eq {states : List Nat} {symbols : List Handle} (h : Path a states symbols) :
    states.length = symbols.length + 1 := by
  induction h with
  | start => rfl
  | step _ _ _ ih => rw [List.length_cons, ih, List.length_cons]

/-- A path without its last steps. -/
theorem drop {states : List Nat} {symbols : List Handle} (h : Path a states symbols) {n : Nat}
    (hn : n ≤ symbols.length) : Path a (states.drop n) (symbols.drop n) := by
  induction n generalizing states symbols with
  | zero => exact h
  | succ n ih =>
    cases h with
    | start => cases hn
    | step h _ _ => exact ih h (Nat.le_of_succ_le_succ hn)

/-- The symbols before the dot of an item are the last symbols of a path to it. -/
theorem before_dot (hc : Canonical g a) {states : List Nat} {symbols : List Handle}
    (h : Path a states symbols) {i : Nat} (hi : states.head? = some i) {s : State}
    (hs : a[i]? = some s) {item : Item} (hitem : item ∈ s.items) :
    item.dot ≤ symbols.length ∧
      (symbols.take item.dot).reverse = (g.rhs item.rule).take item.dot := by
  induction h generalizing i s item with
  | start =>
    cases hi
    obtain ⟨s', hs', hitems⟩ := hc.start
    cases hs'.symm.trans hs
    rw [hitems] at hitem
    have hdot : item.dot = 0 := by
      rcases ItemSet.mem_closure.1 hitem with h | h
      · exact (ItemSet.mem_predicted.1 h).1
      · rw [List.mem_singleton.1 h]
    simp [hdot]
  | @step i' j states symbols s' X hp hs' he ih =>
    cases hi
    obtain ⟨t, ht, hitems⟩ := hc.edge (List.mem_of_getElem? hs') he
    cases ht.symm.trans hs
    rw [hitems] at hitem
    rcases ItemSet.mem_goto hitem with hdot | ⟨before, hbefore, hnext, rfl⟩
    · simp [hdot]
    · -- The item came over the last symbol of the path, which stands behind its dot before.
      obtain ⟨hle, htake⟩ := ih rfl hs' hbefore
      obtain ⟨rest, hrest⟩ := Item.next?_eq_some.1 hnext
      have hX : (g.rhs before.rule)[before.dot]? = some X := by
        rw [← List.head?_drop, ← Item.rest, hrest]
        rfl
      refine ⟨Nat.succ_le_succ hle, ?_⟩
      show ((X :: symbols).take (before.dot + 1)).reverse =
        (g.rhs before.rule).take (before.dot + 1)
      rw [List.take_succ_cons, List.reverse_cons, htake, List.take_add_one, hX]
      rfl

/-- A complete item finds its right-hand side at the end of every path to it. -/
theorem rhs_of_complete (hc : Canonical g a) {states : List Nat} {symbols : List Handle}
    (h : Path a states symbols) {i : Nat} (hi : states.head? = some i) {s : State}
    (hs : a[i]? = some s) {item : Item} (hitem : item ∈ s.items) (hcomplete : item.isComplete g) :
    (g.rhs item.rule).length ≤ symbols.length ∧
      (symbols.take (g.rhs item.rule).length).reverse = g.rhs item.rule := by
  obtain ⟨hle, htake⟩ := h.before_dot hc hi hs hitem
  rw [hc.dot_of_complete (List.mem_of_getElem? hs) hitem hcomplete] at hle htake
  rw [List.take_length] at htake
  exact ⟨hle, htake⟩

/-- The states of a path exist. -/
theorem exists_state (hc : Canonical g a) {states : List Nat} {symbols : List Handle}
    (h : Path a states symbols) {i : Nat} (hi : i ∈ states) : ∃ s, a[i]? = some s := by
  induction h with
  | start =>
    obtain ⟨s, hs, -⟩ := hc.start
    rw [List.mem_singleton.1 hi]
    exact ⟨s, hs⟩
  | step _ hs he ih =>
    rcases List.mem_cons.1 hi with rfl | hi
    · obtain ⟨t, ht, -⟩ := hc.edge (List.mem_of_getElem? hs) he
      exact ⟨t, ht⟩
    · exact ih hi

/-- An item began where its dot was in front: in the state as many steps back. -/
theorem origin (hc : Canonical g a) {states : List Nat} {symbols : List Handle}
    (h : Path a states symbols) {i : Nat} (hi : states.head? = some i) {s : State}
    (hs : a[i]? = some s) {item : Item} (hitem : item ∈ s.items) :
    ∃ k below t, states.drop item.dot = k :: below ∧ a[k]? = some t ∧
      a.follow? k ((g.rhs item.rule).take item.dot) = some i ∧
      ⟨item.rule, 0, item.lookahead⟩ ∈ t.items := by
  induction h generalizing i s item with
  | start =>
    cases hi
    obtain ⟨s', hs', hitems⟩ := hc.start
    cases hs'.symm.trans hs
    have hdot : item.dot = 0 := by
      rw [hitems] at hitem
      rcases ItemSet.mem_closure.1 hitem with h | h
      · exact (ItemSet.mem_predicted.1 h).1
      · rw [List.mem_singleton.1 h]
    refine ⟨0, [], s, by rw [hdot]; rfl, hs, by rw [hdot]; rfl, ?_⟩
    rw [← hdot]
    exact hitem
  | @step i' j states symbols s' X hp hs' he ih =>
    cases hi
    obtain ⟨t, ht, hitems⟩ := hc.edge (List.mem_of_getElem? hs') he
    cases ht.symm.trans hs
    rcases ItemSet.mem_goto (hitems ▸ hitem) with hdot | ⟨before, hbefore, hnext, rfl⟩
    · refine ⟨j, i' :: states, s, by rw [hdot]; rfl, hs, by rw [hdot]; rfl, ?_⟩
      rw [← hdot]
      exact hitem
    · -- The item came over the last symbol of the path, so it began where its predecessor did.
      obtain ⟨k, below, u, hdrop, hk, hfollow, hmem⟩ := ih rfl hs' hbefore
      obtain ⟨rest, hrest⟩ := Item.next?_eq_some.1 hnext
      have hX : (g.rhs before.rule)[before.dot]? = some X := by
        rw [← List.head?_drop, ← Item.rest, hrest]
        rfl
      refine ⟨k, below, u, hdrop, hk, ?_, hmem⟩
      show a.follow? k ((g.rhs before.rule).take (before.dot + 1)) = some j
      rw [List.take_add_one, hX, follow?_append, hfollow]
      exact hc.follow?_edge hs' he

/-- Where an initial item is not that of the augmented rule, its nonterminal is expected. -/
theorem exists_edge_of_initial (hc : Canonical g a) {states : List Nat} {symbols : List Handle}
    (h : Path a states symbols) {i : Nat} (hi : states.head? = some i) {s : State}
    (hs : a[i]? = some s) {id : Nat} {b : Handle} (hitem : ⟨id, 0, b⟩ ∈ s.items) (h0 : id ≠ 0)
    {rule : Rule} (hr : g.rules[id]? = some rule) : ∃ j, (rule.lhs, j) ∈ s.edges := by
  have hpredicted : ∃ kernel, s.items = ItemSet.closure g (First.ofGrammar g) kernel ∧
      ⟨id, 0, b⟩ ∈ ItemSet.predicted g (ItemSet.settled g kernel) := by
    cases h with
    | start =>
      cases hi
      obtain ⟨s', hs', hitems⟩ := hc.start
      cases hs'.symm.trans hs
      rw [hitems] at hitem
      refine ⟨_, hitems, (ItemSet.mem_closure.1 hitem).resolve_right fun hk => ?_⟩
      cases List.mem_singleton.1 hk
      exact h0 rfl
    | step _ hs' he =>
      cases hi
      obtain ⟨t, ht, hitems⟩ := hc.edge (List.mem_of_getElem? hs') he
      cases ht.symm.trans hs
      rw [hitems] at hitem
      refine ⟨_, hitems, (ItemSet.mem_closure.1 hitem).resolve_right fun hk => ?_⟩
      obtain ⟨before, -, heq⟩ := List.mem_map.1 hk
      cases heq
  obtain ⟨kernel, hitems, hmem⟩ := hpredicted
  obtain ⟨other, hother, hnext⟩ := ItemSet.exists_next_of_predicted hmem hr
  exact hc.exists_edge (List.mem_of_getElem? hs) (hitems ▸ hother) hnext

/-- A complete item began as many states back as its right-hand side has symbols, and these lead
from there to the item. -/
theorem origin_of_complete (hc : Canonical g a) {states : List Nat} {symbols : List Handle}
    (h : Path a states symbols) {i : Nat} (hi : states.head? = some i) {s : State}
    (hs : a[i]? = some s) {item : Item} (hitem : item ∈ s.items) (hcomplete : item.isComplete g)
    {rule : Rule} (hr : g.rules[item.rule]? = some rule) :
    ∃ k below t, states.drop rule.rhs.length = k :: below ∧
      Path a (k :: below) (symbols.drop rule.rhs.length) ∧ a[k]? = some t ∧
      a.follow? k rule.rhs = some i ∧ ⟨item.rule, 0, item.lookahead⟩ ∈ t.items := by
  have hrhs : g.rhs item.rule = rule.rhs := by rw [Grammar.rhs, hr]; rfl
  have hdot : item.dot = rule.rhs.length :=
    hrhs ▸ hc.dot_of_complete (List.mem_of_getElem? hs) hitem hcomplete
  obtain ⟨k, below, t, hdrop, ht, hfollow, hinitial⟩ := h.origin hc hi hs hitem
  have hbelow := h.drop (h.before_dot hc hi hs hitem).1
  rw [hdot] at hdrop hfollow hbelow
  rw [hrhs, List.take_length] at hfollow
  exact ⟨k, below, t, hdrop, hdrop ▸ hbelow, ht, hfollow, hinitial⟩

/-- The state where a complete item began has a transition over its nonterminal, and the right-hand
side leads from there to the item. -/
theorem exists_goto (hc : Canonical g a) {states : List Nat} {symbols : List Handle}
    (h : Path a states symbols) {i : Nat} (hi : states.head? = some i) {s : State}
    (hs : a[i]? = some s) {item : Item} (hitem : item ∈ s.items) (hcomplete : item.isComplete g)
    (h0 : item.rule ≠ 0) {rule : Rule} (hr : g.rules[item.rule]? = some rule) :
    ∃ k below t j, states.drop rule.rhs.length = k :: below ∧ a[k]? = some t ∧
      a.follow? k rule.rhs = some i ∧ (rule.lhs, j) ∈ t.edges := by
  obtain ⟨k, below, t, hdrop, hbelow, ht, hfollow, hinitial⟩ :=
    h.origin_of_complete hc hi hs hitem hcomplete hr
  obtain ⟨j, hj⟩ := hbelow.exists_edge_of_initial hc rfl ht hinitial h0 hr
  exact ⟨k, below, t, j, hdrop, ht, hfollow, hj⟩

/-- Where no other rule uses the augmented nonterminal, the augmented rule begins at the start
only. -/
theorem eq_nil_of_augmented (hg : g.WellFormed) (hc : Canonical g a) (hreserved : g.Reserved)
    {states : List Nat} {symbols : List Handle} (h : Path a states symbols) {i : Nat}
    (hi : states.head? = some i) {s : State} (hs : a[i]? = some s) {b : Handle}
    (hitem : ⟨0, 0, b⟩ ∈ s.items) : symbols = [] := by
  cases h with
  | start => rfl
  | @step i' j states symbols s' X hp hs' he =>
    cases hi
    obtain ⟨t, ht, hitems⟩ := hc.edge (List.mem_of_getElem? hs') he
    cases ht.symm.trans hs
    rw [hitems] at hitem
    obtain ⟨lhs, hr⟩ := hg.augmented
    rcases ItemSet.mem_closure.1 hitem with hitem | hitem
    · refine absurd hitem (ItemSet.not_mem_predicted hr (fun item hk hnext => ?_) ?_)
      · -- The dot of an item of the kernel is behind a symbol, and the augmented rule has only one.
        obtain ⟨before, -, rfl⟩ := List.mem_map.1 hk
        obtain ⟨rest, hrest⟩ := Item.next?_eq_some.1 hnext
        obtain ⟨rule, hrule, hlt, hdrop⟩ := Item.rest_eq_cons hrest
        have hmem : lhs ∈ rule.rhs := List.mem_of_mem_drop (hdrop ▸ List.mem_cons_self)
        rw [hreserved.eq_zero hr hrule hmem] at hrule
        cases hr.symm.trans hrule
        exact absurd hlt (by simp [Item.advance])
      · intro rule hrule hhead
        obtain ⟨id, hid⟩ := List.getElem?_of_mem hrule
        rw [hreserved.eq_zero hr hid (List.mem_of_mem_head? hhead)] at hid
        cases hr.symm.trans hid
        rfl
    · obtain ⟨before, -, heq⟩ := List.mem_map.1 hitem
      cases congrArg Item.dot heq

end Path

end Automaton

end Mixfix
