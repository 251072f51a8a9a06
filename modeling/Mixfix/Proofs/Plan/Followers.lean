import Mixfix.Proofs.Automaton.Run
import Mixfix.Proofs.Plan.Ahead
import Mixfix.Proofs.Reach

/-!
# What follows a possibly empty terminal

Before a reduction on a terminal, the followers are the terminals that may come after it.  The
search for them forgets the stack: it goes back to every state from which the right-hand side leads
to the reduction, and through all reductions after it.  A stack is a path, and the right-hand side
is found at the end of every path to a complete item, so whatever reductions a stack goes through,
the search goes through too.

* `Automaton.Leads`: reductions lead to a shift of the terminal, before another one.
* `Automaton.mem_followers_iff`: the search finds just that.
* `Automaton.Reduces`, `Automaton.Shifts`: the reductions of a stack, and where they end.
* `Automaton.Follows`: how the search keeps up with a stack, in one reduction and in a run.
* `Automaton.Accepts.mem_followers`: what a run takes after the terminal is a follower.
* `Automaton.followers_complete`: so is all that the stack of any path may come to.
-/

namespace Mixfix

namespace Automaton

open Ascending

variable {g : Grammar} {a : Automaton} {t u : Handle}

theorem Canonical.ordered_actions (hc : Canonical g a) {s : State} (hs : s ∈ a) :
    Ordered s.actions := by
  rw [hc.actions hs]
  exact State.ordered_actionsOf g s.items s.edges

theorem maps_of_mem_acted (hc : Canonical g a) {j : Nat} {action : Action}
    (h : action ∈ ((a[j]?).bind (·.actions.lookup t)).getD []) :
    ∃ s, a[j]? = some s ∧ Maps s.actions t action := by
  cases hs : a[j]? with
  | none =>
    rw [hs] at h
    cases h
  | some s =>
    rw [hs, Option.bind_some] at h
    exact ⟨s, rfl, (hc.ordered_actions (List.mem_of_getElem? hs)).mem_lookup.1 h⟩

theorem mem_actionsAfter (hc : Canonical g a) {i j id : Nat} {action : Action} :
    (j, action) ∈ a.actionsAfter g t i id ↔ ∃ rule k s s', g.rules[id]? = some rule ∧
      a.follow? k rule.rhs = some i ∧ a[k]? = some s ∧ (rule.lhs, j) ∈ s.edges ∧
      a[j]? = some s' ∧ Maps s'.actions t action := by
  rw [actionsAfter]
  cases hr : g.rules[id]? with
  | none => exact ⟨fun h => (nomatch h), fun ⟨_, _, _, _, h, _⟩ => nomatch h⟩
  | some rule =>
    constructor
    · intro h
      obtain ⟨k, hk, h⟩ := List.mem_flatMap.1 h
      have hfollow := of_decide_eq_true (List.mem_filter.1 hk).2
      cases hbind : (a[k]?).bind (·.next? rule.lhs) with
      | none =>
        rw [hbind] at h
        cases h
      | some after =>
        rw [hbind] at h
        obtain ⟨s, hs, hnext⟩ := Option.bind_eq_some_iff.1 hbind
        obtain ⟨action', haction, heq⟩ := List.mem_map.1 h
        cases heq
        obtain ⟨s', hs', hmaps⟩ := maps_of_mem_acted hc haction
        exact ⟨rule, k, s, s', rfl, hfollow, hs,
          (hc.next?_eq_some (List.mem_of_getElem? hs)).1 hnext, hs', hmaps⟩
    · rintro ⟨_, k, s, s', ⟨⟩, hfollow, hs, he, hs', hmaps⟩
      refine List.mem_flatMap.2 ⟨k, List.mem_filter.2 ⟨?_, decide_eq_true hfollow⟩, ?_⟩
      · exact List.mem_range.2 (List.getElem?_eq_some_iff.1 hs).1
      · rw [hs, Option.bind_some, (hc.next?_eq_some (List.mem_of_getElem? hs)).2 he]
        refine List.mem_map_of_mem ?_
        rw [hs', Option.bind_some]
        exact (hc.ordered_actions (List.mem_of_getElem? hs')).mem_lookup.2 hmaps

/-- Reductions on `t` lead to a state that shifts it, and its target acts on `u`. -/
def Leads (g : Grammar) (a : Automaton) (t u : Handle) (here : Nat × Nat) : Prop :=
  ∃ there, Relation.ReflTransGen (fun x y => y ∈ a.reductionsAfter g t x) here there ∧
    ∃ j target, (j, .shift target) ∈ a.actionsAfter g t there.1 there.2 ∧ u ∈ a.terminalsAt target

/-- Where a search may come to from a state and a rule: besides these, there are no more reductions
than pairs of a state and a rule. -/
def searched (g : Grammar) (a : Automaton) (start : Nat × Nat) : List (Nat × Nat) :=
  start :: List.range a.length ×ˢ List.range g.rules.length

theorem length_searched (start : Nat × Nat) :
    (searched g a start).length = a.length * g.rules.length + 1 := by
  rw [searched, List.length_cons, List.length_product, List.length_range, List.length_range]

theorem searched_closed (hc : Canonical g a) (start : Nat × Nat) :
    ∀ here ∈ searched g a start, a.reductionsAfter g t here ⊆ searched g a start := by
  rintro here - ⟨j, id⟩ h
  obtain ⟨_, _, _, s, -, -, -, -, hs, hmaps⟩ := (mem_actionsAfter hc).1 (mem_reductionsAfter.1 h)
  obtain ⟨-, item, hitem, -, rfl⟩ := hc.exists_item_of_reduce (List.mem_of_getElem? hs) hmaps
  obtain ⟨rule, hr, -⟩ := (hc.proper (List.mem_of_getElem? hs)).dot_le item hitem
  refine List.mem_cons_of_mem _ (List.pair_mem_product.2 ⟨List.mem_range.2 ?_, List.mem_range.2 ?_⟩)
  · exact (List.getElem?_eq_some_iff.1 hs).1
  · exact (List.getElem?_eq_some_iff.1 hr).1

/-- The search for followers finds what reductions lead to, and nothing else. -/
theorem mem_followers_iff (hc : Canonical g a) {i id : Nat} :
    u ∈ a.followers g i id t ↔ Leads g a t u (i, id) := by
  rw [followers_eq, mem_followersWithin]
  refine exists_congr fun there => and_congr_left fun _ => ?_
  exact mem_reach_iff (searched_closed hc _) (length_searched (i, id)).le List.mem_cons_self

/-! ### Reductions of a stack -/

/-- A reduction takes the right-hand side of a rule off a stack of states, its top first, and goes
on over the nonterminal. -/
inductive Reduced (a : Automaton) (rule : Rule) : List Nat → List Nat → Prop where
  | mk {stack below : List Nat} {j k : Nat} {s : State} :
      stack.drop rule.rhs.length = k :: below → a[k]? = some s → s.next? rule.lhs = some j →
      Reduced a rule stack (j :: k :: below)

/-- A reduction that the state on top of a stack allows on `t`. -/
inductive Reduces (g : Grammar) (a : Automaton) (t : Handle) : List Nat → List Nat → Prop where
  | mk {i id : Nat} {below stack' : List Nat} {s : State} {rule : Rule} :
      a[i]? = some s → Maps s.actions t (.reduce id) → g.rules[id]? = some rule →
      Reduced a rule (i :: below) stack' → Reduces g a t (i :: below) stack'

/-- Reductions on `t` lead a stack to one whose top shifts it into the state `q`. -/
def Shifts (g : Grammar) (a : Automaton) (t : Handle) (stack : List Nat) (q : Nat) : Prop :=
  ∃ j below s, Relation.ReflTransGen (Reduces g a t) stack (j :: below) ∧ a[j]? = some s ∧
    Maps s.actions t (.shift q)

/-- The stack is a path, and what its top does on `t` is found after a reduction. -/
structure Follows (g : Grammar) (a : Automaton) (t : Handle) (here : Nat × Nat)
    (stack : List Nat) : Prop where
  path : ∃ symbols, Path a stack symbols
  acts : ∀ {j : Nat} {s : State} {action : Action}, stack.head? = some j → a[j]? = some s →
    Maps s.actions t action → (j, action) ∈ a.actionsAfter g t here.1 here.2

/-- What follows a reduction by the rule of a complete item is found: the right-hand side leads from
the state below it to that of the item. -/
theorem Path.follows (hc : Canonical g a) {i : Nat} {below stack' : List Nat}
    {symbols : List Handle} (h : Path a (i :: below) symbols) {s : State} (hs : a[i]? = some s)
    {item : Item} (hitem : item ∈ s.items) (hcomplete : item.isComplete g) {rule : Rule}
    (hr : g.rules[item.rule]? = some rule) (hreduced : Reduced a rule (i :: below) stack') :
    Follows g a t (i, item.rule) stack' := by
  obtain ⟨hdrop, hk, hnext⟩ := hreduced
  obtain ⟨_, _, _, hdrop', hbelow, -, hfollow, -⟩ :=
    h.origin_of_complete hc rfl hs hitem hcomplete hr
  cases hdrop.symm.trans hdrop'
  have he := (hc.next?_eq_some (List.mem_of_getElem? hk)).1 hnext
  refine ⟨⟨_, .step hbelow hk he⟩, fun hj hs' hmaps => ?_⟩
  cases hj
  exact (mem_actionsAfter hc).2 ⟨rule, _, _, _, hr, hfollow, hk, he, hs', hmaps⟩

namespace Follows

variable {here : Nat × Nat} {stack stack' : List Nat}

/-- One more reduction is one more step of the search. -/
theorem step (hc : Canonical g a) (h : Follows g a t here stack)
    (hreduces : Reduces g a t stack stack') :
    ∃ there ∈ a.reductionsAfter g t here, Follows g a t there stack' := by
  obtain ⟨hs, hmaps, hr, hreduced⟩ := hreduces
  obtain ⟨symbols, hpath⟩ := h.path
  obtain ⟨-, item, hitem, hcomplete, rfl⟩ :=
    hc.exists_item_of_reduce (List.mem_of_getElem? hs) hmaps
  exact ⟨_, mem_reductionsAfter.2 (h.acts rfl hs hmaps),
    hpath.follows hc hs hitem hcomplete hr hreduced⟩

theorem run (hc : Canonical g a) (h : Follows g a t here stack)
    (hrun : Relation.ReflTransGen (Reduces g a t) stack stack') :
    ∃ there, Relation.ReflTransGen (fun x y => y ∈ a.reductionsAfter g t x) here there ∧
      Follows g a t there stack' := by
  induction hrun with
  | refl => exact ⟨here, .refl, h⟩
  | tail _ hreduces ih =>
    obtain ⟨there, hreach, hthere⟩ := ih
    obtain ⟨next, hnext, hfollows⟩ := hthere.step hc hreduces
    exact ⟨next, hreach.tail hnext, hfollows⟩

/-- The terminals that are acted on behind `t` are led to. -/
theorem leads (hc : Canonical g a) (h : Follows g a t here stack) {q : Nat}
    (hshifts : Shifts g a t stack q) (hu : u ∈ a.terminalsAt q) : Leads g a t u here := by
  obtain ⟨j, below, s, hrun, hs, hmaps⟩ := hshifts
  obtain ⟨there, hreach, hthere⟩ := h.run hc hrun
  exact ⟨there, hreach, j, q, hthere.acts rfl hs hmaps, hu⟩

end Follows

/-- A run over `t` and `u` reduces before `t`, then shifts it into a state that acts on `u`. -/
theorem Accepts.exists_shifts (hc : Canonical g a) {states : List Nat} {word rest : List Handle}
    (h : Accepts g a states word) (hword : word = t :: u :: rest) :
    ∃ q, Shifts g a t states q ∧ u ∈ a.terminalsAt q := by
  induction h with
  | accept => cases hword
  | shift hs he ht haccepts _ =>
    cases hword
    obtain ⟨_, _, s', _, _, _, heq, hs', heq', hmaps⟩ := haccepts.exists_action hc
    cases heq
    cases heq'
    refine ⟨_, ⟨_, _, _, .refl, hs, hc.maps_shift (List.mem_of_getElem? hs) he ht⟩, ?_⟩
    exact mem_terminalsAt.2 ⟨s', hs',
      (hc.mem_state_terminals (List.mem_of_getElem? hs')).2 ⟨_, hmaps⟩⟩
  | reduce hs hmaps hr hdrop hk he _ ih =>
    cases hword
    obtain ⟨q, ⟨j, below, s, hrun, hs', hmaps'⟩, hu⟩ := ih rfl
    have hreduced := Reduced.mk hdrop hk ((hc.next?_eq_some (List.mem_of_getElem? hk)).2 he)
    exact ⟨q, ⟨j, below, s, hrun.head (.mk hs hmaps hr hreduced), hs', hmaps'⟩, hu⟩

/-- **What a run takes after a terminal** that it reduces on is a follower. -/
theorem Accepts.mem_followers (hc : Canonical g a) {i j k id : Nat} {states below : List Nat}
    {symbols : List Handle} (hpath : Path a (i :: states) symbols) {s s' : State}
    (hs : a[i]? = some s) (hmaps : Maps s.actions t (.reduce id)) {rule : Rule}
    (hr : g.rules[id]? = some rule) (hdrop : (i :: states).drop rule.rhs.length = k :: below)
    (hs' : a[k]? = some s') (he : (rule.lhs, j) ∈ s'.edges) {rest : List Handle}
    (h : Accepts g a (j :: k :: below) (t :: u :: rest)) : u ∈ a.followers g i id t := by
  obtain ⟨-, item, hitem, hcomplete, rfl⟩ :=
    hc.exists_item_of_reduce (List.mem_of_getElem? hs) hmaps
  have hreduced := Reduced.mk hdrop hs' ((hc.next?_eq_some (List.mem_of_getElem? hs')).2 he)
  obtain ⟨q, hshifts, hu⟩ := h.exists_shifts hc rfl
  refine (mem_followers_iff hc).2 ?_
  exact (hpath.follows hc hs hitem hcomplete hr hreduced).leads hc hshifts hu

/-- **The followers miss nothing.**  From every path and every complete item of its last state, if
the reduction and others that the states allow on a terminal lead to a shift, then all that the
target acts on is found.  The search ends: with more turns it finds no more, and it cannot take
turns forever. -/
theorem followers_complete {r : Registry} {start : Handle} {rules : List Rule}
    {kinds : List (Handle × Kind)} (h : Grammar.ofRules r start rules kinds = .ok g) :
    (∀ {i : Nat} {below stack : List Nat} {symbols : List Handle} {s : State} {rule : Rule},
      Path (ofGrammar g) (i :: below) symbols → (ofGrammar g)[i]? = some s →
      ∀ item ∈ s.items, item.isComplete g → g.rules[item.rule]? = some rule →
      Reduced (ofGrammar g) rule (i :: below) stack →
      ∀ {t u : Handle} {q : Nat} {target : State} {action : Action},
        Shifts g (ofGrammar g) t stack q → (ofGrammar g)[q]? = some target →
        Maps target.actions u action → u ∈ (ofGrammar g).followers g i item.rule t) ∧
    ∀ i id t,
      (∀ more, (ofGrammar g).followersWithin g
        ((ofGrammar g).length * g.rules.length + 1 + more) i id t =
          (ofGrammar g).followers g i id t) ∧
      Acc (fun work' work => Turn ((ofGrammar g).reductionsAfter g t) work work')
        ([(i, id)], [(i, id)]) := by
  have hc := canonical (Grammar.WellFormed.of_ofRules h)
  refine ⟨?_, fun i id t => ⟨fun more => ?_, ?_⟩⟩
  · intro i below stack symbols s rule hpath hs item hitem hcomplete hr hreduced
      t u q target action hshifts hq hmaps
    refine (mem_followers_iff hc).2 ?_
    refine (hpath.follows hc hs hitem hcomplete hr hreduced).leads hc hshifts ?_
    exact mem_terminalsAt.2 ⟨target, hq,
      (hc.mem_state_terminals (List.mem_of_getElem? hq)).2 ⟨action, hmaps⟩⟩
  · have hreach := reach_add (searched_closed (t := t) hc (i, id)) (length_searched (i, id)).le
      List.mem_cons_self more
    rw [followers_eq, followersWithin, hreach]
    rfl
  · exact (Pursuit.one (searched_closed hc (i, id)) List.mem_cons_self).acc

/-- A letter `y`, blanks that may be missing, and a letter `x`. -/
def padded : Grammar where
  registry := .ofLists ["S", "A", "B", "Start'"] [["ws?"], ["ws"], ["x"], ["y"]]
    [[⟨-2⟩, ⟨-3⟩, ⟨-4⟩]] [(⟨-1⟩, ⟨-2⟩)]
  rules := [⟨⟨4⟩, [⟨1⟩]⟩, ⟨⟨1⟩, [⟨2⟩, ⟨-1⟩, ⟨-3⟩]⟩, ⟨⟨2⟩, [⟨3⟩]⟩, ⟨⟨3⟩, [⟨-4⟩]⟩]
  start := ⟨1⟩
  kinds := [(⟨4⟩, .transparent)]

/-- Behind the `y`, before the blanks, there are two reductions until the blanks are shifted, and
then `x` may come. -/
theorem mem_followers_padded : ⟨-3⟩ ∈ (ofGrammar padded).followers padded 1 3 ⟨-1⟩ := by
  have hrules : Grammar.ofRules
      (.ofLists ["S", "A", "B"] [["ws?"], ["ws"], ["x"], ["y"]] [[⟨-2⟩, ⟨-3⟩, ⟨-4⟩]]
        [(⟨-1⟩, ⟨-2⟩)]) ⟨1⟩
      [⟨⟨1⟩, [⟨2⟩, ⟨-1⟩, ⟨-3⟩]⟩, ⟨⟨2⟩, [⟨3⟩]⟩, ⟨⟨3⟩, [⟨-4⟩]⟩] [] = .ok padded :=
    Grammar.eq_ok_of_registry rfl (Registry.eq_of_lists rfl rfl rfl rfl rfl)
  obtain ⟨⟨s, hs, hy, hB, hA⟩, ⟨s', hs', hitem⟩, ⟨b, hb, hreduce⟩, ⟨c, hc, hshift⟩, ⟨d, hd, hx⟩⟩ :
      (∃ s ∈ (ofGrammar padded)[0]?, (⟨-4⟩, 1) ∈ s.edges ∧ s.next? ⟨3⟩ = some 4 ∧
        s.next? ⟨2⟩ = some 3) ∧
      (∃ s ∈ (ofGrammar padded)[1]?, ⟨3, 1, ⟨-1⟩⟩ ∈ s.items) ∧
      (∃ s ∈ (ofGrammar padded)[4]?, Maps s.actions ⟨-1⟩ (.reduce 2)) ∧
      (∃ s ∈ (ofGrammar padded)[3]?, Maps s.actions ⟨-1⟩ (.shift 5)) ∧
      (∃ s ∈ (ofGrammar padded)[5]?, Maps s.actions ⟨-3⟩ (.shift 6)) := by
    decide +kernel
  have hpath : Path (ofGrammar padded) [1, 0] [⟨-4⟩] := .step .start hs hy
  have hrun : Relation.ReflTransGen (Reduces padded (ofGrammar padded) ⟨-1⟩) [4, 0] [3, 0] :=
    .single (.mk hb hreduce rfl (.mk rfl hs hA))
  exact (followers_complete hrules).1 hpath hs' ⟨3, 1, ⟨-1⟩⟩ hitem rfl rfl (.mk rfl hs hB)
    ⟨3, [0], c, hrun, hc, hshift⟩ hd hx

end Automaton

end Mixfix
