import Mixfix.Automaton.Item
import Mixfix.Proofs.Automaton.First

/-!
# The closure of a set of items

The goals of a closure are closed under the rules: their iteration has come to rest.  So the closure
holds its kernel, all other items have their dot in front, and with an item before a nonterminal it
holds the initial items of that nonterminal's rules, each with every terminal that may follow.

* `ItemSet.mem_closure`: the members are the kernel and the predicted items.
* `ItemSet.closure_closed`: an item before a nonterminal brings the rules of that nonterminal.
* `ItemSet.exists_next_of_predicted`: no other items are predicted.
* `ItemSet.Proper`: an ascending set of items of the grammar; closures and transitions keep it.
* `ItemSet.mem_goto`, `ItemSet.advance_mem_goto`: the members of a transition.
-/

namespace Mixfix

open Ascending

theorem Item.rest_eq_cons {g : Grammar} {item : Item} {s : Handle} {rest : List Handle}
    (h : item.rest g = s :: rest) :
    ∃ rule, g.rules[item.rule]? = some rule ∧ item.dot < rule.rhs.length ∧
      rule.rhs.drop item.dot = s :: rest := by
  rw [Item.rest, Grammar.rhs] at h
  cases hr : g.rules[item.rule]? with
  | none => rw [hr] at h; simp at h
  | some rule =>
    rw [hr] at h
    refine ⟨rule, rfl, ?_, h⟩
    by_contra hlt
    rw [Option.elim_some, List.drop_eq_nil_of_le (Nat.le_of_not_lt hlt)] at h
    cases h

theorem Item.next?_eq_some {g : Grammar} {item : Item} {s : Handle} :
    item.next? g = some s ↔ ∃ rest, item.rest g = s :: rest :=
  List.head?_eq_some_iff

namespace ItemSet

variable {g : Grammar} {first : First}

/-! ### Goals -/

theorem ask_grows (symbols lookaheads : List Handle) (goals : Goals) :
    ask first symbols lookaheads goals = goals ∨
      weight goals < weight (ask first symbols lookaheads goals) := by
  unfold ask
  split
  · exact .inl rfl
  · split
    · exact unionAt_grows _ _ _
    · exact .inl rfl

theorem spread_step_grows (first : First) (goals : Goals) (rule : Rule) :
    ask first rule.rhs ((goals.lookup rule.lhs).getD []) goals = goals ∨
      weight goals < weight (ask first rule.rhs ((goals.lookup rule.lhs).getD []) goals) :=
  ask_grows _ _ _

theorem maps_ask_of_maps {symbols lookaheads : List Handle} {goals : Goals} {s b : Handle}
    (h : Maps goals s b) : Maps (ask first symbols lookaheads goals) s b := by
  unfold ask
  split
  · exact h
  · split
    · exact maps_unionAt.2 (.inr h)
    · exact h

theorem ordered_ask {symbols lookaheads : List Handle} {goals : Goals} (h : Ordered goals) :
    Ordered (ask first symbols lookaheads goals) := by
  unfold ask
  split
  · exact h
  · split
    · exact ordered_unionAt h
    · exact h

theorem maps_ask_cons {lookaheads rest : List Handle} {goals : Goals} {s b : Handle}
    (hs : s.isNonTerminal) (hb : b ∈ first.startsBefore rest lookaheads) :
    Maps (ask first (s :: rest) lookaheads goals) s b := by
  simp only [ask, hs, if_true]
  exact maps_unionAt.2 (.inl ⟨rfl, hb⟩)

/-- A goal was there before, or is the first of the symbols that were asked for. -/
theorem maps_ask_cases {symbols lookaheads : List Handle} {goals : Goals} {s b : Handle}
    (h : Maps (ask first symbols lookaheads goals) s b) :
    Maps goals s b ∨ symbols.head? = some s ∧ lookaheads ≠ [] := by
  unfold ask at h
  split at h
  · exact .inl h
  · split at h
    · rcases maps_unionAt.1 h with ⟨rfl, hb⟩ | h
      · exact .inr ⟨rfl, (First.mem_startsBefore.1 hb).1⟩
      · exact .inl h
    · exact .inl h

theorem maps_spread_of_maps {goals : Goals} {s b : Handle} (h : Maps goals s b) :
    Maps (spread g first goals) s b :=
  List.foldlRecOn (motive := fun goals : Goals => Maps goals s b) g.rules _ h
    fun _ h _ _ => maps_ask_of_maps h

/-- The items of a set ask for the nonterminals after their dots. -/
theorem maps_goals {items : ItemSet} {item : Item} (hi : item ∈ items) {s b : Handle}
    {rest : List Handle} (hrest : item.rest g = s :: rest) (hs : s.isNonTerminal)
    (hb : b ∈ first.startsBefore rest [item.lookahead]) : Maps (goals g first items) s b := by
  suffices ∀ (l : ItemSet) (goals : Goals), item ∈ l → Maps (l.foldl (fun goals item =>
      ask first (item.rest g) [item.lookahead] goals) goals) s b from this items [] hi
  intro l
  induction l with
  | nil => exact fun _ h => nomatch h
  | cons i l ih =>
    intro goals hmem
    rw [List.foldl_cons]
    rcases List.mem_cons.1 hmem with rfl | hmem
    · have hask : Maps (ask first (item.rest g) [item.lookahead] goals) s b := by
        rw [hrest]
        exact maps_ask_cons hs hb
      exact List.foldlRecOn (motive := fun goals : Goals => Maps goals s b) l _ hask
        fun _ h _ _ => maps_ask_of_maps h
    · exact ih _ hmem

/-- Ordered goals: nonterminals with rules, and terminals among the given ones. -/
structure GoalsFrom (g : Grammar) (members : List Handle) (goals : Goals) : Prop where
  ordered : Ordered goals
  keys : ∀ e ∈ goals, e.1 ∈ g.rules.map (·.lhs)
  members : ∀ s b, Maps goals s b → b ∈ members

theorem GoalsFrom.lookup {members : List Handle} {goals : Goals} (h : GoalsFrom g members goals)
    {s b : Handle} (hb : b ∈ (goals.lookup s).getD []) : b ∈ members :=
  h.members s b (h.ordered.mem_lookup.1 hb)

/-- Asking for what follows in a rule keeps the goals in bounds. -/
theorem GoalsFrom.ask (hg : g.WellFormed) {members : List Handle} (hm : ∀ t ∈ g.uses, t ∈ members)
    {goals : Goals} (h : GoalsFrom g members goals) {rule : Rule} (hr : rule ∈ g.rules)
    {symbols lookaheads : List Handle} (hsub : ∀ s ∈ symbols, s ∈ rule.rhs)
    (hl : ∀ b ∈ lookaheads, b ∈ members) :
    GoalsFrom g members (ask (First.ofGrammar g) symbols lookaheads goals) := by
  unfold ItemSet.ask
  split
  · exact h
  · next s rest =>
    split
    · next hs =>
      refine ⟨ordered_unionAt h.ordered, fun e he => ?_, fun s' b hb => ?_⟩
      · rcases First.keys_unionAt h.ordered he with heq | ⟨e', he', heq⟩
        · obtain ⟨r, hr', hrs⟩ := hg.defined rule hr s (hsub s List.mem_cons_self) hs
          rw [heq, ← hrs]
          exact List.mem_map_of_mem hr'
        · rw [← heq]
          exact h.keys e' he'
      · rcases maps_unionAt.1 hb with ⟨-, hb⟩ | hb
        · rcases (First.mem_startsBefore.1 hb).2 with hb | ⟨-, hb⟩
          · obtain ⟨s'', hs'', ht⟩ := First.exists_of_mem_startsOfAll hb
            exact hm b ((First.tableFrom_ofGrammar g).starts_uses hr
              (hsub s'' (List.mem_cons_of_mem s hs'')) ht)
          · exact hl b hb
        · exact h.members s' b hb
    · exact h

theorem GoalsFrom.spread (hg : g.WellFormed) {members : List Handle}
    (hm : ∀ t ∈ g.uses, t ∈ members) {goals : Goals} (h : GoalsFrom g members goals) :
    GoalsFrom g members (spread g (First.ofGrammar g) goals) :=
  List.foldlRecOn (motive := GoalsFrom g members) g.rules _ h fun _ h _ hr =>
    h.ask hg hm hr (fun _ hs => hs) fun _ => h.lookup

theorem goalsFrom_goals (hg : g.WellFormed) {members : List Handle}
    (hm : ∀ t ∈ g.uses, t ∈ members) {items : ItemSet}
    (hi : ∀ item ∈ items, item.lookahead ∈ members) :
    GoalsFrom g members (goals g (First.ofGrammar g) items) := by
  refine List.foldlRecOn (motive := GoalsFrom g members) items _
    ⟨ordered_nil, fun _ h => (nomatch h), fun _ _ h => absurd h maps_nil⟩
    fun goals h item hmem => ?_
  cases hrest : item.rest g with
  | nil => exact h
  | cons s rest =>
    obtain ⟨rule, hr, -, hdrop⟩ := Item.rest_eq_cons hrest
    refine h.ask hg hm (List.mem_of_getElem? hr) (fun s' hs' => ?_) fun b hb => ?_
    · rw [← hdrop] at hs'
      exact List.mem_of_mem_drop hs'
    · rw [List.mem_singleton.1 hb]
      exact hi item hmem

/-- The goals of a closure, at rest. -/
def settled (g : Grammar) (kernel : ItemSet) : Goals :=
  settle (spread g (First.ofGrammar g))
    (g.rules.length * (g.size + kernel.length) + 1)
    (goals g (First.ofGrammar g) kernel)

theorem closure_eq (g : Grammar) (kernel : ItemSet) :
    closure g (First.ofGrammar g) kernel = union (predicted g (settled g kernel)) kernel := rfl

theorem ordered_settled (g : Grammar) (kernel : ItemSet) : Ordered (settled g kernel) := by
  refine settle_keeps (K := Ordered) (fun goals h => ?_) _ ?_
  · exact List.foldlRecOn (motive := Ordered) g.rules _ h fun _ h _ _ => ordered_ask h
  · exact List.foldlRecOn (motive := Ordered) kernel _ ordered_nil fun _ h _ _ => ordered_ask h

theorem goalsFrom_settled (hg : g.WellFormed) (members : List Handle)
    (hm : ∀ t ∈ g.uses, t ∈ members) {kernel : ItemSet}
    (hk : ∀ item ∈ kernel, item.lookahead ∈ members) : GoalsFrom g members (settled g kernel) :=
  settle_keeps (fun _ h => GoalsFrom.spread hg hm h) _ (goalsFrom_goals hg hm hk)

theorem spread_settled (hg : g.WellFormed) (kernel : ItemSet) :
    spread g (First.ofGrammar g) (settled g kernel) = settled g kernel := by
  have hm : ∀ t ∈ g.uses, t ∈ g.uses ++ kernel.map (·.lookahead) :=
    fun t ht => List.mem_append_left _ ht
  refine settle_fixed (K := GoalsFrom g (g.uses ++ kernel.map (·.lookahead))) weight
    (g.rules.length * (g.size + kernel.length))
    (fun _ h => h.spread hg hm) (foldl_grows (spread_step_grows _) g.rules) (fun goals h => ?_)
    (goalsFrom_goals hg hm fun item hi => List.mem_append_right _ (List.mem_map_of_mem hi))
    (by omega)
  calc weight goals
      ≤ (g.rules.map (·.lhs)).length * (g.uses ++ kernel.map (·.lookahead)).length :=
        h.ordered.weight_le h.keys h.members
    _ ≤ g.rules.length * (g.size + kernel.length) := by
        rw [List.length_map, List.length_append, List.length_map]
        exact Nat.mul_le_mul_left _ (Nat.add_le_add_right g.length_uses_le _)

/-! ### Members -/

theorem mem_predicted {goals : Goals} {item : Item} : item ∈ predicted g goals ↔
    item.dot = 0 ∧ ∃ rule, g.rules[item.rule]? = some rule ∧
      item.lookahead ∈ (goals.lookup rule.lhs).getD [] := by
  rw [predicted, List.mem_flatten]
  constructor
  · rintro ⟨l, hl, hi⟩
    obtain ⟨id, hid, rfl⟩ := List.mem_mapIdx.1 hl
    obtain ⟨b, hb, rfl⟩ := List.mem_map.1 hi
    exact ⟨rfl, g.rules[id], List.getElem?_eq_getElem hid, hb⟩
  · rintro ⟨hd, rule, hr, hb⟩
    obtain ⟨hid, hrule⟩ := List.getElem?_eq_some_iff.1 hr
    refine ⟨_, List.mem_mapIdx.2 ⟨item.rule, hid, rfl⟩, List.mem_map.2 ⟨item.lookahead, ?_, ?_⟩⟩
    · rw [hrule]
      exact hb
    · rw [← hd]

theorem mem_closure {kernel : ItemSet} {item : Item} :
    item ∈ closure g (First.ofGrammar g) kernel ↔
      item ∈ predicted g (settled g kernel) ∨ item ∈ kernel := by
  rw [closure_eq, mem_union]

/-- With an item before a nonterminal, a closure holds the initial items of the nonterminal's rules
for every terminal that may come after it. -/
theorem closure_closed (hg : g.WellFormed) {kernel : ItemSet} {item : Item}
    (hi : item ∈ closure g (First.ofGrammar g) kernel) {s b : Handle} {rest : List Handle}
    (hrest : item.rest g = s :: rest) (hs : s.isNonTerminal)
    (hb : b ∈ (First.ofGrammar g).startsBefore rest [item.lookahead]) {id : Nat} {rule : Rule}
    (hr : g.rules[id]? = some rule) (hl : rule.lhs = s) :
    ⟨id, 0, b⟩ ∈ closure g (First.ofGrammar g) kernel := by
  suffices hmaps : Maps (settled g kernel) s b by
    refine mem_closure.2 (.inl (mem_predicted.2 ⟨rfl, rule, hr, ?_⟩))
    rw [hl, (ordered_settled g kernel).mem_lookup]
    exact hmaps
  rcases mem_closure.1 hi with hi | hi
  · -- An initial item: its nonterminal is a goal, and the goals do not spread any further.
    obtain ⟨hd, r, hr', hla⟩ := mem_predicted.1 hi
    have hfix := foldl_fixed (spread_step_grows _) (spread_settled hg kernel) r
      (List.mem_of_getElem? hr')
    have hrhs : r.rhs = s :: rest := by
      rw [Item.rest, hd, Grammar.rhs, hr'] at hrest
      exact hrest
    rw [hrhs] at hfix
    rw [← hfix]
    refine maps_ask_cons hs ?_
    obtain ⟨-, hb⟩ := First.mem_startsBefore.1 hb
    refine First.mem_startsBefore.2 ⟨List.ne_nil_of_mem hla, hb.imp_right fun ⟨hn, hb⟩ => ⟨hn, ?_⟩⟩
    rw [List.mem_singleton.1 hb]
    exact hla
  · -- An item of the kernel: the goals that it asks for are there from the beginning.
    exact settle_keeps (K := fun goals : Goals => Maps goals s b)
      (fun _ => maps_spread_of_maps) _ (maps_goals hi hrest hs hb)

/-! ### Why an item is predicted -/

/-- Why a nonterminal is a goal: an item of the kernel expects it, or the rule of another goal
begins with it. -/
def Reason (g : Grammar) (kernel : ItemSet) (goals : Goals) (s : Handle) : Prop :=
  (∃ item ∈ kernel, item.next? g = some s) ∨
    ∃ (id : Nat) (rule : Rule) (b : Handle), g.rules[id]? = some rule ∧ rule.rhs.head? = some s ∧
      Maps goals rule.lhs b

/-- Ordered goals, each with its reason. -/
def Reasoned (g : Grammar) (kernel : ItemSet) (goals : Goals) : Prop :=
  Ordered goals ∧ ∀ s b, Maps goals s b → Reason g kernel goals s

/-- Asking keeps the reasons, if there is one for what is asked. -/
theorem Reasoned.ask {kernel : ItemSet} {goals : Goals} (h : Reasoned g kernel goals)
    {symbols lookaheads : List Handle}
    (hs : ∀ s, symbols.head? = some s → lookaheads ≠ [] → Reason g kernel goals s) :
    Reasoned g kernel (ask first symbols lookaheads goals) := by
  have hkeep : ∀ {s}, Reason g kernel goals s →
      Reason g kernel (ItemSet.ask first symbols lookaheads goals) s :=
    Or.imp_right fun ⟨id, rule, b, hr, hhead, hm⟩ =>
      ⟨id, rule, b, hr, hhead, maps_ask_of_maps hm⟩
  refine ⟨ordered_ask h.1, fun s b hb => hkeep ?_⟩
  rcases maps_ask_cases hb with hb | ⟨hhead, hne⟩
  · exact h.2 s b hb
  · exact hs s hhead hne

theorem reasoned_goals (g : Grammar) (kernel : ItemSet) :
    Reasoned g kernel (goals g first kernel) := by
  refine List.foldlRecOn (motive := Reasoned g kernel) kernel _
    ⟨ordered_nil, fun _ _ h => absurd h maps_nil⟩ fun goals h item hi => h.ask fun s hs _ => ?_
  exact .inl ⟨item, hi, hs⟩

theorem Reasoned.spread {kernel : ItemSet} {goals : Goals} (h : Reasoned g kernel goals) :
    Reasoned g kernel (spread g first goals) := by
  refine List.foldlRecOn (motive := Reasoned g kernel) g.rules _ h fun goals h rule hr =>
    h.ask fun s hs hne => ?_
  obtain ⟨id, hid⟩ := List.getElem?_of_mem hr
  obtain ⟨b', hb'⟩ := List.exists_mem_of_ne_nil _ hne
  exact .inr ⟨id, rule, b', hid, hs, h.1.mem_lookup.1 hb'⟩

/-- A predicted item answers an item of the closure that expects its nonterminal. -/
theorem exists_next_of_predicted {kernel : ItemSet} {item : Item}
    (h : item ∈ predicted g (settled g kernel)) {rule : Rule}
    (hr : g.rules[item.rule]? = some rule) :
    ∃ other ∈ closure g (First.ofGrammar g) kernel, other.next? g = some rule.lhs := by
  obtain ⟨hordered, hreasons⟩ : Reasoned g kernel (settled g kernel) :=
    settle_keeps (K := Reasoned g kernel) (fun _ h => h.spread) _ (reasoned_goals g kernel)
  obtain ⟨-, rule', hr', hla⟩ := mem_predicted.1 h
  cases hr.symm.trans hr'
  rcases hreasons _ _ (hordered.mem_lookup.1 hla) with
    ⟨other, ho, hnext⟩ | ⟨id, other, b, hid, hhead, hmaps⟩
  · exact ⟨other, mem_closure.2 (.inr ho), hnext⟩
  · refine ⟨⟨id, 0, b⟩, mem_closure.2 (.inl (mem_predicted.2 ⟨rfl, other, hid, ?_⟩)), ?_⟩
    · exact hordered.mem_lookup.2 hmaps
    · rw [Item.next?, Item.rest, Grammar.rhs, hid]
      exact hhead

/-- Goals without a given nonterminal. -/
def Without (s : Handle) (goals : Goals) : Prop := Ordered goals ∧ ∀ b, ¬ Maps goals s b

theorem Without.ask {s : Handle} {goals : Goals} (h : Without s goals)
    {symbols lookaheads : List Handle} (hs : symbols.head? = some s → lookaheads = []) :
    Without s (ask first symbols lookaheads goals) := by
  refine ⟨ordered_ask h.1, fun b hb => ?_⟩
  rcases maps_ask_cases hb with hb | ⟨hhead, hne⟩
  · exact h.2 b hb
  · exact hne (hs hhead)

/-- A nonterminal that no item of the kernel expects, and that only rules of its own begin with, is
not predicted. -/
theorem not_mem_predicted {kernel : ItemSet} {item : Item} {rule : Rule}
    (hr : g.rules[item.rule]? = some rule)
    (hkernel : ∀ item ∈ kernel, item.next? g ≠ some rule.lhs)
    (hrules : ∀ other ∈ g.rules, other.rhs.head? = some rule.lhs → other.lhs = rule.lhs) :
    item ∉ predicted g (settled g kernel) := by
  have hgoals : Without rule.lhs (goals g (First.ofGrammar g) kernel) :=
    List.foldlRecOn (motive := Without rule.lhs) kernel _ ⟨ordered_nil, fun _ => maps_nil⟩
      fun _ h item hi => h.ask fun hnext => absurd hnext (hkernel item hi)
  have hspread : ∀ goals, Without rule.lhs goals →
      Without rule.lhs (spread g (First.ofGrammar g) goals) := by
    intro goals h
    refine List.foldlRecOn (motive := Without rule.lhs) g.rules _ h fun goals h other ho => ?_
    -- A rule that begins with the nonterminal is one of its own, and it has not been asked for.
    refine h.ask fun hhead => ?_
    rw [hrules other ho hhead]
    exact List.eq_nil_iff_forall_not_mem.2 fun b hb => h.2 b (h.1.mem_lookup.1 hb)
  obtain ⟨hordered, hnone⟩ : Without rule.lhs (settled g kernel) := settle_keeps hspread _ hgoals
  intro hitem
  obtain ⟨-, rule', hr', hb⟩ := mem_predicted.1 hitem
  cases hr.symm.trans hr'
  exact hnone _ (hordered.mem_lookup.1 hb)

/-! ### Proper sets of items -/

/-- Ascending items of rules of the grammar, before terminals of the rules or the end of input. -/
structure Proper (g : Grammar) (items : ItemSet) : Prop where
  sorted : Sorted items
  dot_le : ∀ item ∈ items, ∃ rule, g.rules[item.rule]? = some rule ∧ item.dot ≤ rule.rhs.length
  lookahead : ∀ item ∈ items, item.lookahead ∈ Handle.endOfInput :: g.uses

theorem sorted_predicted {goals : Goals} (h : Ordered goals) : Sorted (predicted g goals) := by
  rw [Sorted, predicted, List.pairwise_flatten]
  constructor
  · intro l hl
    obtain ⟨id, hid, rfl⟩ := List.mem_mapIdx.1 hl
    rw [List.pairwise_map]
    have hsorted : Sorted ((goals.lookup g.rules[id].lhs).getD []) := by
      cases hlook : goals.lookup g.rules[id].lhs with
      | none => exact List.Pairwise.nil
      | some s => exact h.2 _ (h.lookup_eq_some.1 hlook)
    refine List.Pairwise.imp (fun {a b} hlt => ?_) hsorted
    exact Item.lt_iff.2 (.inr ⟨rfl, .inr ⟨rfl, hlt⟩⟩)
  · rw [List.pairwise_iff_getElem]
    intro i j hi hj hij x hx y hy
    rw [List.getElem_mapIdx] at hx hy
    obtain ⟨a, -, rfl⟩ := List.mem_map.1 hx
    obtain ⟨b, -, rfl⟩ := List.mem_map.1 hy
    exact Item.lt_iff.2 (.inl hij)

theorem sorted_closure (g : Grammar) (kernel : ItemSet) :
    Sorted (closure g (First.ofGrammar g) kernel) :=
  sorted_union (sorted_predicted (ordered_settled g kernel))

theorem Proper.closure (hg : g.WellFormed) {kernel : ItemSet}
    (hd : ∀ item ∈ kernel, ∃ rule, g.rules[item.rule]? = some rule ∧ item.dot ≤ rule.rhs.length)
    (hl : ∀ item ∈ kernel, item.lookahead ∈ Handle.endOfInput :: g.uses) :
    Proper g (closure g (First.ofGrammar g) kernel) := by
  have hbounds := goalsFrom_settled hg (Handle.endOfInput :: g.uses)
    (fun t ht => List.mem_cons_of_mem _ ht) hl
  refine ⟨sorted_closure g kernel, fun item hi => ?_, fun item hi => ?_⟩
  · rcases mem_closure.1 hi with hi | hi
    · obtain ⟨hdot, rule, hr, -⟩ := mem_predicted.1 hi
      exact ⟨rule, hr, hdot ▸ Nat.zero_le _⟩
    · exact hd item hi
  · rcases mem_closure.1 hi with hi | hi
    · obtain ⟨-, rule, -, hla⟩ := mem_predicted.1 hi
      exact hbounds.lookup hla
    · exact hl item hi

/-! ### Transitions -/

/-- The items over a symbol, with the dot behind it. -/
theorem advance_mem_goto {items : ItemSet} {item : Item} (hi : item ∈ items) {s : Handle}
    (hs : item.next? g = some s) : item.advance ∈ goto g (First.ofGrammar g) items s :=
  mem_closure.2 (.inr (List.mem_map_of_mem (List.mem_filter.2 ⟨hi, decide_eq_true hs⟩)))

theorem mem_goto {items : ItemSet} {item : Item} {s : Handle}
    (h : item ∈ goto g (First.ofGrammar g) items s) :
    item.dot = 0 ∨ ∃ i ∈ items, i.next? g = some s ∧ item = i.advance := by
  rcases mem_closure.1 h with h | h
  · exact .inl (mem_predicted.1 h).1
  · obtain ⟨i, hi, rfl⟩ := List.mem_map.1 h
    obtain ⟨hi, hs⟩ := List.mem_filter.1 hi
    exact .inr ⟨i, hi, of_decide_eq_true hs, rfl⟩

theorem Proper.goto (hg : g.WellFormed) {items : ItemSet} (h : Proper g items) (s : Handle) :
    Proper g (goto g (First.ofGrammar g) items s) := by
  refine Proper.closure hg (fun item hi => ?_) fun item hi => ?_
  · obtain ⟨i, hi', rfl⟩ := List.mem_map.1 hi
    obtain ⟨-, hs⟩ := List.mem_filter.1 hi'
    obtain ⟨rest, hrest⟩ := Item.next?_eq_some.1 (of_decide_eq_true hs)
    obtain ⟨rule, hr, hlt, -⟩ := Item.rest_eq_cons hrest
    exact ⟨rule, hr, hlt⟩
  · obtain ⟨i, hi', rfl⟩ := List.mem_map.1 hi
    exact h.lookahead i (List.mem_filter.1 hi').1

theorem mem_expected {items : ItemSet} {s : Handle} :
    s ∈ expected g items ↔ ∃ item ∈ items, item.next? g = some s := by
  rw [expected, mem_ofList, List.mem_filterMap]

end ItemSet

end Mixfix
