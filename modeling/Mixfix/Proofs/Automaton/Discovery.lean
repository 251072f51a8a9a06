import Mixfix.Proofs.Automaton.Path

/-!
# How states are discovered

Every set that a survey has found, but the first, was entered over a symbol from a set in front of
it.  So every state can be reached, and since the symbol before the dots of a set is that of each
transition into it, a state has one such symbol.

The closure of a set of items is the least set that has them and the initial items of every
nonterminal after a dot.  Together with the survey's end this makes the states the canonical
collection.

* `ItemSet.mem_closure_iff`: the members of a closure are what its kernel entails.
* `Automaton.Survey.Entered`: how the sets of a survey were found.
* `Automaton.ofGrammar_collects`: the states of a grammar are its canonical collection.
-/

namespace Mixfix

open Ascending

namespace ItemSet

variable {g : Grammar} {kernel : ItemSet}

/-! ### What a kernel entails -/

/-- The items of a kernel, and the initial items of every nonterminal after a dot, each before every
terminal that may follow there. -/
inductive Entailed (g : Grammar) (kernel : ItemSet) : Item → Prop where
  | kernel {item : Item} : item ∈ kernel → Entailed g kernel item
  | initial {item : Item} {s b : Handle} {rest : List Handle} {id : Nat} {rule : Rule} :
      Entailed g kernel item → item.rest g = s :: rest → s.isNonTerminal →
      b ∈ (First.ofGrammar g).startsBefore rest [item.lookahead] →
      g.rules[id]? = some rule → rule.lhs = s → Entailed g kernel ⟨id, 0, b⟩

/-- An entailed item asks for the terminal behind the nonterminal. -/
def AskedFor (g : Grammar) (kernel : ItemSet) (s b : Handle) : Prop :=
  ∃ item rest, Entailed g kernel item ∧ item.rest g = s :: rest ∧ s.isNonTerminal ∧
    b ∈ (First.ofGrammar g).startsBefore rest [item.lookahead]

/-- Ordered goals that entailed items ask for. -/
def Justified (g : Grammar) (kernel : ItemSet) (goals : Goals) : Prop :=
  Ordered goals ∧ ∀ s b, Maps goals s b → AskedFor g kernel s b

/-- Asking keeps the goals justified, if entailed items have the symbols after their dots and each
of the lookaheads behind them. -/
theorem Justified.ask {goals : Goals} (h : Justified g kernel goals)
    {symbols lookaheads : List Handle}
    (hitem : ∀ b ∈ lookaheads, ∃ item, Entailed g kernel item ∧ item.rest g = symbols ∧
      item.lookahead = b) :
    Justified g kernel (ask (First.ofGrammar g) symbols lookaheads goals) := by
  refine ⟨ordered_ask h.1, fun s b hb => ?_⟩
  unfold ItemSet.ask at hb
  split at hb
  · exact h.2 s b hb
  · next s' rest =>
    split at hb
    · next hs =>
      rcases maps_unionAt.1 hb with ⟨rfl, hstarts⟩ | hb
      · -- The terminal starts the symbols behind, or it is a lookahead and these derive nothing.
        obtain ⟨hne, hstarts⟩ := First.mem_startsBefore.1 hstarts
        rcases hstarts with hb | ⟨hnull, hb⟩
        · obtain ⟨b', hb'⟩ := List.exists_mem_of_ne_nil _ hne
          obtain ⟨item, hentailed, hrest, -⟩ := hitem b' hb'
          exact ⟨item, rest, hentailed, hrest, hs, First.mem_startsBefore.2 ⟨by simp, .inl hb⟩⟩
        · obtain ⟨item, hentailed, hrest, rfl⟩ := hitem b hb
          exact ⟨item, rest, hentailed, hrest, hs, First.mem_startsBefore.2
            ⟨by simp, .inr ⟨hnull, List.mem_singleton_self _⟩⟩⟩
      · exact h.2 s b hb
    · exact h.2 s b hb

theorem AskedFor.initial {s b : Handle} (h : AskedFor g kernel s b) {id : Nat} {rule : Rule}
    (hr : g.rules[id]? = some rule) (hl : rule.lhs = s) : Entailed g kernel ⟨id, 0, b⟩ := by
  obtain ⟨item, rest, hentailed, hrest, hs, hb⟩ := h
  exact .initial hentailed hrest hs hb hr hl

theorem justified_goals (g : Grammar) (kernel : ItemSet) :
    Justified g kernel (goals g (First.ofGrammar g) kernel) := by
  refine List.foldlRecOn (motive := Justified g kernel) kernel _
    ⟨ordered_nil, fun _ _ h => absurd h maps_nil⟩ fun goals h item hi => h.ask fun b hb => ?_
  exact ⟨item, .kernel hi, rfl, (List.mem_singleton.1 hb).symm⟩

theorem Justified.spread {goals : Goals} (h : Justified g kernel goals) :
    Justified g kernel (spread g (First.ofGrammar g) goals) := by
  refine List.foldlRecOn (motive := Justified g kernel) g.rules _ h fun goals h rule hr =>
    h.ask fun b hb => ?_
  obtain ⟨id, hid⟩ := List.getElem?_of_mem hr
  refine ⟨⟨id, 0, b⟩, (h.2 _ _ (h.1.mem_lookup.1 hb)).initial hid rfl, ?_, rfl⟩
  rw [Item.rest, Grammar.rhs, hid]
  rfl

/-- The members of a closure are what its kernel entails. -/
theorem mem_closure_iff (hg : g.WellFormed) {item : Item} :
    item ∈ closure g (First.ofGrammar g) kernel ↔ Entailed g kernel item := by
  constructor
  · intro hi
    rcases mem_closure.1 hi with hi | hi
    · obtain ⟨hordered, hjustified⟩ : Justified g kernel (settled g kernel) :=
        settle_keeps (K := Justified g kernel) (fun _ h => h.spread) _ (justified_goals g kernel)
      obtain ⟨hd, rule, hr, hb⟩ := mem_predicted.1 hi
      cases item
      cases hd
      exact (hjustified _ _ (hordered.mem_lookup.1 hb)).initial hr rfl
    · exact .kernel hi
  · intro h
    induction h with
    | kernel hi => exact mem_closure.2 (.inr hi)
    | initial _ hrest hs hb hr hl ih => exact closure_closed hg ih hrest hs hb hr hl

end ItemSet

namespace Automaton

variable {g : Grammar}

namespace Survey

/-! ### Entering sets -/

/-- A set that is new when it is placed comes last, with the symbol that it was entered by. -/
theorem entry_of_place {sets : List (ItemSet × Option Handle)} {items : ItemSet} {symbol : Handle}
    {i : Nat} {x : ItemSet × Option Handle} (hx : (place sets items symbol).2[i]? = some x)
    (hi : sets.length ≤ i) : (place sets items symbol).1 = i ∧ x.2 = some symbol := by
  unfold place at hx ⊢
  split at hx
  · exact absurd (List.getElem?_eq_some_iff.1 hx).1 (Nat.not_lt.2 hi)
  · obtain ⟨hlt, -⟩ := List.getElem?_eq_some_iff.1 hx
    rw [List.length_append, List.length_singleton] at hlt
    obtain rfl := Nat.le_antisymm (Nat.le_of_lt_succ hlt) hi
    rw [List.getElem?_concat_length] at hx
    cases hx
    exact ⟨rfl, rfl⟩

/-- A set that is new among the targets of some transitions was entered by one of them. -/
theorem entry_of_transitions {items : ItemSet} {symbols : List Handle}
    {sets : List (ItemSet × Option Handle)} {i : Nat} {x : ItemSet × Option Handle}
    (hx : (Survey.transitions g (First.ofGrammar g) items symbols sets).2[i]? = some x)
    (hi : sets.length ≤ i) :
    ∃ X, (X, i) ∈ (Survey.transitions g (First.ofGrammar g) items symbols sets).1 ∧
      x.2 = some X := by
  induction symbols generalizing sets with
  | nil => exact absurd (List.getElem?_eq_some_iff.1 hx).1 (Nat.not_lt.2 hi)
  | cons symbol symbols ih =>
    rw [transitions_cons] at hx ⊢
    generalize hplace : place sets (items.goto g (First.ofGrammar g) symbol) symbol = placed at hx ⊢
    by_cases hlt : i < placed.2.length
    · -- It was new for the first symbol, and the other ones leave it where it is.
      obtain ⟨more, hmore, -⟩ := transitions_spec (g := g) items symbols placed.2
      rw [hmore, List.getElem?_append_left hlt, ← hplace] at hx
      obtain ⟨rfl, hentry⟩ := entry_of_place hx hi
      exact ⟨symbol, hplace ▸ List.mem_cons_self, hentry⟩
    · obtain ⟨X, he, hentry⟩ := ih hx (Nat.le_of_not_lt hlt)
      exact ⟨X, List.mem_cons_of_mem _ he, hentry⟩

/-- The first set was not entered, and every other one by a transition from a set in front of it. -/
structure Entered (v : Survey) : Prop where
  opened_le : v.edges.length ≤ v.sets.length
  first : ∀ {x : ItemSet × Option Handle}, v.sets[0]? = some x → x.2 = none
  others : ∀ {i : Nat} {x : ItemSet × Option Handle}, v.sets[i]? = some x → i ≠ 0 →
    ∃ j X edges, j < i ∧ v.edges[j]? = some edges ∧ (X, i) ∈ edges ∧ x.2 = some X

theorem Entered.open {v : Survey} (h : Entered v) {items : ItemSet} {entry : Option Handle}
    (hn : v.sets[v.edges.length]? = some (items, entry)) :
    Entered ⟨(Survey.transitions g (First.ofGrammar g) items (items.expected g) v.sets).2,
      v.edges ++
        [(Survey.transitions g (First.ofGrammar g) items (items.expected g) v.sets).1]⟩ := by
  obtain ⟨more, hsets, -⟩ := transitions_spec (g := g) items (items.expected g) v.sets
  have hlt : v.edges.length < v.sets.length := (List.getElem?_eq_some_iff.1 hn).1
  refine ⟨?_, fun {x} hx => ?_, fun {i x} hx hi => ?_⟩
  · rw [hsets, List.length_append, List.length_append, List.length_singleton]
    exact Nat.le_add_right_of_le hlt
  · rw [hsets, List.getElem?_append_left (Nat.zero_lt_of_lt hlt)] at hx
    exact h.first hx
  · by_cases hold : i < v.sets.length
    · rw [hsets, List.getElem?_append_left hold] at hx
      obtain ⟨j, X, edges, hj, hedges, he, hentry⟩ := h.others hx hi
      have hjl := (List.getElem?_eq_some_iff.1 hedges).1
      exact ⟨j, X, edges, hj, by rwa [List.getElem?_append_left hjl], he, hentry⟩
    · -- A new set is entered from the one that is opened.
      have hnew := Nat.le_of_not_lt hold
      obtain ⟨X, he, hentry⟩ := entry_of_transitions hx hnew
      exact ⟨v.edges.length, X, _, hlt.trans_le hnew, List.getElem?_concat_length, he, hentry⟩

theorem Entered.run (bound : Nat) {v : Survey} (h : Entered v) :
    Entered (Survey.run g (First.ofGrammar g) bound v) := by
  induction bound generalizing v with
  | zero => exact h
  | succ bound ih =>
    rw [Survey.run]
    split
    · exact h
    · next hn => exact ih (h.open hn)

/-- Once every set is opened, a larger bound changes nothing. -/
theorem run_add (bound more : Nat) {v : Survey}
    (hend : (Survey.run g (First.ofGrammar g) bound v).edges.length =
      (Survey.run g (First.ofGrammar g) bound v).sets.length) :
    Survey.run g (First.ofGrammar g) (bound + more) v =
      Survey.run g (First.ofGrammar g) bound v := by
  induction bound generalizing v with
  | zero =>
    cases more with
    | zero => rfl
    | succ more =>
      have hnone : v.sets[v.edges.length]? = none := List.getElem?_eq_none_iff.2 hend.ge
      have hrun : Survey.run g (First.ofGrammar g) (more + 1) v = v := by rw [Survey.run, hnone]
      rw [Nat.zero_add, hrun]
      rfl
  | succ bound ih =>
    rw [Nat.add_right_comm, Survey.run]
    rw [Survey.run] at hend ⊢
    split
    · rfl
    · next hn =>
      rw [hn] at hend
      exact ih hend

end Survey

theorem entered_surveyOf (g : Grammar) : Survey.Entered (surveyOf g) := by
  refine Survey.Entered.run _ ⟨Nat.zero_le _, fun {x} hx => ?_, fun {i x} hx hi => ?_⟩
  · cases hx
    rfl
  · cases i with
    | zero => exact absurd rfl hi
    | succ i => simp at hx

/-! ### The canonical collection -/

section

variable {a : Automaton}

/-- The items behind whose dot a symbol was just moved over have that symbol before the dot. -/
theorem rhs_of_mem_goto {items : ItemSet} {item : Item} {X : Handle}
    (h : item ∈ items.goto g (First.ofGrammar g) X) (hdot : item.dot ≠ 0) :
    (g.rhs item.rule)[item.dot - 1]? = some X := by
  rcases ItemSet.mem_goto h with h0 | ⟨before, -, hnext, rfl⟩
  · exact absurd h0 hdot
  · rw [Item.next?, Item.rest, List.head?_drop] at hnext
    exact hnext

/-- A transition leads to a set with an item whose dot is not in front. -/
theorem Canonical.exists_moved (hc : Canonical g a) {s : State} (hs : s ∈ a) {X : Handle} {j : Nat}
    (he : (X, j) ∈ s.edges) : ∃ item ∈ s.items.goto g (First.ofGrammar g) X, item.dot ≠ 0 := by
  have hmem : X ∈ s.items.expected g := by
    rw [← hc.keys hs]
    exact List.mem_map_of_mem he
  obtain ⟨item, hitem, hnext⟩ := ItemSet.mem_expected.1 hmem
  exact ⟨item.advance, ItemSet.advance_mem_goto hitem hnext, Nat.succ_ne_zero _⟩

/-- All transitions into a state are over one symbol. -/
theorem Canonical.entry_unique (hc : Canonical g a) {s s' : State} (hs : s ∈ a) (hs' : s' ∈ a)
    {X Y : Handle} {j : Nat} (hX : (X, j) ∈ s.edges) (hY : (Y, j) ∈ s'.edges) : X = Y := by
  obtain ⟨t, ht, hitems⟩ := hc.edge hs hX
  obtain ⟨t', ht', hitems'⟩ := hc.edge hs' hY
  cases ht.symm.trans ht'
  obtain ⟨item, hitem, hdot⟩ := hc.exists_moved hs hX
  have hrhs := rhs_of_mem_goto hitem hdot
  rw [← hitems, hitems'] at hitem
  exact Option.some.inj (hrhs.symm.trans (rhs_of_mem_goto hitem hdot))

/-- No transition leads to the first state: all its items have their dots in front. -/
theorem Canonical.target_ne_zero (hc : Canonical g a) {s : State} (hs : s ∈ a) {X : Handle}
    {j : Nat} (he : (X, j) ∈ s.edges) : j ≠ 0 := by
  rintro rfl
  obtain ⟨t, ht, hitems⟩ := hc.edge hs he
  obtain ⟨t', ht', hitems'⟩ := hc.start
  cases ht.symm.trans ht'
  obtain ⟨item, hitem, hdot⟩ := hc.exists_moved hs he
  rw [← hitems, hitems'] at hitem
  rcases ItemSet.mem_closure.1 hitem with hitem | hitem
  · exact hdot (ItemSet.mem_predicted.1 hitem).1
  · rw [List.mem_singleton.1 hitem] at hdot
    exact hdot rfl

end

/-- Every computation that builds the states has come to rest. -/
structure Ends (g : Grammar) : Prop where
  /-- With more turns the first terminals would be the same. -/
  first : ∀ more, First.fill g.rules (First.turns g + more) ⟨[], []⟩ = some (First.ofGrammar g)
  /-- A closure has all that its kernel entails, and nothing else. -/
  closure : ∀ kernel item, item ∈ ItemSet.closure g (First.ofGrammar g) kernel ↔
    ItemSet.Entailed g kernel item
  /-- Every set is opened, and with more turns the survey would find no other. -/
  opened : (surveyOf g).edges.length = (surveyOf g).sets.length
  survey : ∀ more, Survey.run g (First.ofGrammar g) (2 ^ itemCount g + more)
    ⟨[(ItemSet.closure g (First.ofGrammar g) [⟨0, 0, .endOfInput⟩], none)], []⟩ = surveyOf g

/-- The states are the canonical collection of a grammar. -/
structure Collects (g : Grammar) (a : Automaton) : Prop where
  start : ∃ s, a[0]? = some s ∧ s.entry = none ∧
    s.items = ItemSet.closure g (First.ofGrammar g) [⟨0, 0, .endOfInput⟩]
  distinct : (a.map (·.items)).Nodup
  reachable : ∀ i < a.length, ∃ symbols, a.follow? 0 symbols = some i
  /-- There are transitions over the symbols that some item expects. -/
  keys : ∀ {i : Nat} {s : State}, a[i]? = some s → ∀ X,
    (∃ j, s.next? X = some j) ↔ ∃ item ∈ s.items, item.next? g = some X
  /-- A transition leads to the items moved over its symbol, a state that is entered over no other
  symbol and not the first one. -/
  target : ∀ {i : Nat} {s : State}, a[i]? = some s → ∀ {X : Handle} {j : Nat},
    s.next? X = some j → j ≠ 0 ∧ ∃ t, a[j]? = some t ∧ t.entry = some X ∧
      t.items = s.items.goto g (First.ofGrammar g) X

theorem entry_ofGrammar {i : Nat} {s : State} (h : (ofGrammar g)[i]? = some s) :
    (surveyOf g).sets[i]? = some (s.items, s.entry) := by
  rw [ofGrammar_eq, List.getElem?_zipWith] at h
  cases hx : (surveyOf g).sets[i]? with
  | none => rw [hx] at h; cases h
  | some x =>
    cases he : (surveyOf g).edges[i]? with
    | none => rw [hx, he] at h; cases h
    | some edges =>
      rw [hx, he] at h
      cases h
      rfl

/-- A state but the first is entered from one in front of it. -/
theorem exists_source (hg : g.WellFormed) {i : Nat} {s : State} (hs : (ofGrammar g)[i]? = some s)
    (hi : i ≠ 0) : ∃ j t X, j < i ∧ (ofGrammar g)[j]? = some t ∧ (X, i) ∈ t.edges ∧
      s.entry = some X := by
  obtain ⟨j, X, edges, hj, hedges, he, hentry⟩ :=
    (entered_surveyOf g).others (entry_ofGrammar hs) hi
  have hset : j < (surveyOf g).sets.length := by
    rw [← length_edges_surveyOf hg]
    exact (List.getElem?_eq_some_iff.1 hedges).1
  obtain ⟨t, ht, -⟩ := exists_of_setAt? hg
    (show Survey.setAt? (surveyOf g).sets j = some (surveyOf g).sets[j].1 by
      rw [Survey.setAt?, List.getElem?_eq_getElem hset]; rfl)
  obtain ⟨-, hedges', -⟩ := getElem?_ofGrammar ht
  cases hedges.symm.trans hedges'
  exact ⟨j, t, X, hj, ht, he, hentry⟩

theorem map_items_ofGrammar (hg : g.WellFormed) :
    (ofGrammar g).map (·.items) = (surveyOf g).sets.map (·.1) := by
  have hzip := List.map_fst_zip (length_edges_surveyOf hg).ge
  rw [ofGrammar_eq, ← List.map_uncurry_zip_eq_zipWith, List.map_map]
  conv_rhs => rw [← hzip, List.map_map]
  rfl

theorem reachable_ofGrammar (hg : g.WellFormed) {i : Nat} (hi : i < (ofGrammar g).length) :
    ∃ symbols, (ofGrammar g).follow? 0 symbols = some i := by
  induction i using Nat.strongRecOn with
  | ind i ih =>
    by_cases h0 : i = 0
    · exact ⟨[], h0 ▸ rfl⟩
    · obtain ⟨j, t, X, hj, ht, he, -⟩ := exists_source hg (List.getElem?_eq_getElem hi) h0
      obtain ⟨symbols, hfollow⟩ := ih j hj (hj.trans hi)
      refine ⟨symbols ++ [X], ?_⟩
      rw [follow?_append, hfollow, Option.bind_some]
      exact (canonical hg).follow?_edge ht he

/-- **The states of a grammar are its canonical collection**, and building them ends. -/
theorem ofGrammar_collects {r : Registry} {start : Handle} {rules : List Rule}
    {kinds : List (Handle × Kind)} (h : Grammar.ofRules r start rules kinds = .ok g) :
    Ends g ∧ Collects g (ofGrammar g) := by
  have hg := Grammar.WellFormed.of_ofRules h
  have hc := canonical hg
  constructor
  · exact
      { first := First.fill_ofGrammar g
        closure := fun kernel item => ItemSet.mem_closure_iff hg
        opened := length_edges_surveyOf hg
        survey := fun more => Survey.run_add _ more (length_edges_surveyOf hg) }
  · refine
      { start := ?_
        distinct := ?_
        reachable := fun i => reachable_ofGrammar hg
        keys := fun {i s} hs X => ?_
        target := fun {i s} hs {X j} hX => ?_ }
    · obtain ⟨s, hs, hitems⟩ := hc.start
      exact ⟨s, hs, (entered_surveyOf g).first (entry_ofGrammar hs), hitems⟩
    · rw [map_items_ofGrammar hg]
      exact (sound_surveyOf hg).distinct
    · rw [← ItemSet.mem_expected, ← hc.keys (List.mem_of_getElem? hs), List.mem_map]
      simp only [hc.next?_eq_some (List.mem_of_getElem? hs)]
      exact ⟨fun ⟨j, he⟩ => ⟨(X, j), he, rfl⟩, fun ⟨e, he, heq⟩ => ⟨e.2, heq ▸ he⟩⟩
    · have hmem := List.mem_of_getElem? hs
      have he := (hc.next?_eq_some hmem).1 hX
      have hj := hc.target_ne_zero hmem he
      obtain ⟨t, ht, hitems⟩ := hc.edge hmem he
      obtain ⟨j', t', Y, -, ht', he', hentry⟩ := exists_source hg ht hj
      rw [hc.entry_unique (List.mem_of_getElem? ht') hmem he' he] at hentry
      exact ⟨hj, t, ht, hentry, hitems⟩

/-- A `y` and any number of `x` behind it. -/
def trailing : Grammar where
  registry := .ofLists ["S", "Start'"] [["x"], ["y"]] [] []
  rules := [⟨⟨2⟩, [⟨1⟩]⟩, ⟨⟨1⟩, [⟨1⟩, ⟨-1⟩]⟩, ⟨⟨1⟩, [⟨-2⟩]⟩]
  start := ⟨1⟩
  kinds := [(⟨2⟩, .transparent)]

theorem trailing_collects : Ends trailing ∧ Collects trailing (ofGrammar trailing) := by
  have hrules : Grammar.ofRules (.ofLists ["S"] [["x"], ["y"]] [] []) ⟨1⟩
    [⟨⟨1⟩, [⟨1⟩, ⟨-1⟩]⟩, ⟨⟨1⟩, [⟨-2⟩]⟩] [] = .ok trailing :=
    Grammar.eq_ok_of_registry rfl (Registry.eq_of_lists rfl rfl rfl rfl rfl)
  exact ofGrammar_collects hrules

end Automaton

end Mixfix
