import Mixfix.Proofs.Executor.Soundness
import Mixfix.Proofs.Plan.Decision
import Mixfix.Proofs.Registry

/-!
# Completeness of the executor

Where at every place exactly one terminal is there, a grammar whose automaton has no conflicts
parses every word of its language.  The machine follows a derivation tree: in a state that expects
the symbol of the tree it takes the tokens of the tree and comes to the state behind the symbol,
with the result of the tree on its stack.

* `Executor.Spells`: a row of tokens is there, and nothing else.
* `Executor.walk_of_decides`: a walk follows what its plan decides on.
* `Executor.Deterministic.follow`: the machine follows a derivation tree.
* `Executor.parser_complete`: every word of the language is parsed.
-/

namespace Mixfix

namespace Executor

open Ascending Mixfix.Derivation

variable {σ : Type} {g : Grammar} {e : Executor σ} {w : Window}

/-- At a place the parser of the token's terminal succeeds with the token, and the other terminals
of the grammar do not match. -/
def Only (e : Executor σ) (w : Window) (c : Cursor σ) (token : Ahead σ) : Prop :=
  ∀ t ∈ Handle.endOfInput :: e.table.grammar.terminals, ∃ parser,
    e.terminals.lookup t = some parser ∧ (parser c.user w c.position).result =
      .ok (if t = token.terminal then some token.parsed else none)

/-- From a place on the tokens follow one another, each the only one that is there. -/
def Spells (e : Executor σ) (w : Window) : Cursor σ → List (Ahead σ) → Prop
  | _, [] => True
  | c, token :: tokens => e.Only w c token ∧ Spells e w token.parsed.cursor tokens

theorem spells_append {c : Cursor σ} {ts us : List (Ahead σ)} :
    e.Spells w c (ts ++ us) ↔ e.Spells w c ts ∧ e.Spells w (c.past ts) us := by
  induction ts generalizing c with
  | nil => exact ⟨fun h => ⟨trivial, h⟩, And.right⟩
  | cons t ts ih => rw [List.cons_append, Spells, Spells, ih, Cursor.past_cons, and_assoc]

theorem position_past (c : Cursor σ) (ts : List (Ahead σ)) :
    (c.past ts).position = stopOf ts c.position := by
  rw [Cursor.past, stopOf]
  cases ts.getLast? <;> rfl

/-! ### Reading -/

/-- Among different terminals a scan finds the one that is there. -/
theorem scan_of_only {c : Cursor σ} {token : Ahead σ} {ts : List Handle}
    (ho : ∀ t ∈ ts, ∃ parser, e.terminals.lookup t = some parser ∧
      (parser c.user w c.position).result =
        .ok (if t = token.terminal then some token.parsed else none)) (hn : ts.Nodup)
    {found : Option (Ahead σ)} (hf : token.terminal ∈ ts → found = none) :
    (e.scan c.user w c.position ts found).result =
      .ok (if token.terminal ∈ ts then some token else found) := by
  induction ts generalizing found with
  | nil => rfl
  | cons t ts ih =>
    obtain ⟨ht, hn'⟩ := List.nodup_cons.1 hn
    obtain ⟨⟨parser, hparser, hresult⟩, ho'⟩ := List.forall_mem_cons.1 ho
    rw [scan]
    refine Traced.bind_eq_ok.2 ⟨parser, parserOf_eq_ok.2 hparser, ?_⟩
    refine Traced.bind_eq_ok.2 ⟨_, hresult, ?_⟩
    by_cases heq : t = token.terminal
    · rw [if_pos heq, hf (heq ▸ List.mem_cons_self), if_pos (heq ▸ List.mem_cons_self)]
      subst heq
      exact (ih ho' hn' fun h => absurd h ht).trans (by rw [if_neg ht])
    · rw [if_neg heq]
      refine (ih ho' hn' fun h => hf (List.mem_cons_of_mem t h)).trans ?_
      simp only [List.mem_cons, Ne.symm heq, false_or]

/-- The buffer is empty or holds the next token. -/
def Within (buffer input : List (Ahead σ)) : Prop := buffer = [] ∨ buffer = input.take 1

theorem walkBranch_map {m : Machine σ} {ts : List Handle} {next : Handle → Plan} {t : Handle}
    (ht : t ∈ ts) (depth : Nat) (buffer : List (Ahead σ)) :
    e.walkBranch w m (ts.map fun u => ([u], next u)) t depth buffer =
      e.walk w m (next t) depth buffer := by
  induction ts with
  | nil => cases ht
  | cons u ts ih =>
    rw [List.map_cons, walkBranch]
    by_cases heq : t = u
    · rw [if_pos (by simp [heq]), heq]
    · rw [if_neg (by simp [heq])]
      exact ih ((List.mem_cons.1 ht).resolve_left heq)

theorem walk_leaf (m : Machine σ) (move : Move) (depth : Nat) (buffer : List (Ahead σ)) :
    (e.walk w m move.leaf depth buffer).result = .ok (some (move, buffer)) := by
  cases move <;> rw [Move.leaf, walk] <;> rfl

/-- A walk comes to the move that its plan decides on, and has read the next token or nothing. -/
theorem walk_of_decides {m : Machine σ} {token : Ahead σ} {input : List (Ahead σ)} {move : Move}
    {plan : Plan} (ho : e.Only w m.cursor token) (hb : Within m.buffer (token :: input))
    (hd : Plan.Decides token.terminal move.leaf
      (Handle.endOfInput :: e.table.grammar.terminals) plan) :
    ∃ buffer, Within buffer (token :: input) ∧
      (e.walk w m plan 0 m.buffer).result = .ok (some (move, buffer)) := by
  cases hd with
  | atOnce => exact ⟨m.buffer, hb, walk_leaf m move 0 m.buffer⟩
  | @read ts next hn hts ht hnext =>
    have hread : (e.read w m ((ts.map fun u => ([u], next u)).flatMap (·.1)) 0 m.buffer).result =
        .ok (some (token.terminal, [token])) := by
      have hflat : (ts.map fun u => ([u], next u)).flatMap (·.1) = ts := by
        rw [List.flatMap_map, List.flatMap_singleton']
      rw [hflat, read_eq]
      rcases hb with hb | hb
      · rw [hb]
        refine Traced.bind_eq_ok.2 ⟨some token, ?_, rfl⟩
        rw [← if_pos ht (t := some token) (e := none)]
        exact scan_of_only (fun t ht => ho t (hts t ht)) hn fun _ => rfl
      · rw [hb]
        rfl
    refine ⟨[token], .inr rfl, ?_⟩
    rw [walk]
    refine Traced.bind_eq_ok.2 ⟨_, hread, ?_⟩
    dsimp only
    rw [walkBranch_map ht, hnext]
    exact walk_leaf m move 1 [token]

/-! ### Steps -/

/-- The machine with these stacks and this buffer at a place. -/
def Machine.at (c : Cursor σ) (states : List Nat) (nodes : List Node) (buffer : List (Ahead σ)) :
    Machine σ :=
  ⟨c.user, c.position, states, nodes, buffer⟩

/-- Any number of steps without an answer. -/
def Steps (e : Executor σ) (w : Window) (origin : Position) : Machine σ → Machine σ → Prop :=
  Relation.ReflTransGen fun m m' => (e.step w origin m).result = .ok (.running m')

/-- A run makes the steps it can make. -/
theorem Steps.run {origin : Position} {m m' : Machine σ} (h : e.Steps w origin m m') :
    ∃ n, ∀ limit, (e.run w origin (n + limit) m).result = (e.run w origin limit m').result := by
  induction h using Relation.ReflTransGen.head_induction_on with
  | refl => exact ⟨0, fun limit => by rw [Nat.zero_add]⟩
  | @head m₁ m₂ hstep _ ih =>
    obtain ⟨n, hn⟩ := ih
    refine ⟨n + 1, fun limit => ?_⟩
    rw [Nat.add_right_comm, Executor.run, Traced.bind_result, hstep]
    exact hn limit

/-- What a move does. -/
def perform (e : Executor σ) (w : Window) (origin : Position) (m : Machine σ) (current : Nat) :
    Move → Traced Fault (Outcome σ)
  | .shift target terminal munch => e.shift w origin m current target terminal munch
  | .reduce rule => e.reduce w m current rule
  | .accept => e.accept w origin m current

theorem step_of_walk {origin : Position} {m : Machine σ} {i : Nat} {states : List Nat} {plan : Plan}
    {move : Move} {buffer : List (Ahead σ)} (hi : m.states = i :: states)
    (hplan : e.table.plan? i = some plan)
    (hwalk : (e.walk w m plan 0 m.buffer).result = .ok (some (move, buffer))) :
    (e.step w origin m).result = (e.perform w origin { m with buffer } i move).result := by
  unfold step
  split
  · next h => cases hi.symm.trans h
  · next h =>
    cases hi.symm.trans h
    rw [hplan]
    dsimp only
    rw [Traced.bind_result, hwalk]
    cases move <;> rfl

/-- The grammar of an executor keeps to one action for each terminal, in every state. -/
structure Deterministic (g : Grammar) (e : Executor σ) : Prop where
  wellFormed : g.WellFormed
  table : e.table = Table.ofGrammar g
  emptyPairs : g.registry.emptyPairs = []
  distinct : ∀ t ∈ Handle.endOfInput :: g.terminals, ∀ u ∈ Handle.endOfInput :: g.terminals,
    t ≠ u → g.registry.distinct t u
  conflictFree : ∀ s ∈ Automaton.ofGrammar g, s.hasConflict = false
  kind : ∀ rule ∈ g.rules, ∃ kind, g.kind rule.lhs = .ok kind
  /-- The augmented nonterminal is on no right-hand side. -/
  fresh : ∀ {augmented : Rule}, g.rules[0]? = some augmented →
    ∀ rule ∈ g.rules, augmented.lhs ∉ rule.rhs

namespace Deterministic

variable {origin : Position} {m : Machine σ} {i : Nat} {states : List Nat} {s : State}
  {token : Ahead σ} {input : List (Ahead σ)}

theorem grammar_eq (h : Deterministic g e) : e.table.grammar = g := by
  rw [h.table]
  rfl

theorem canonical (h : Deterministic g e) : (Automaton.ofGrammar g).Canonical g :=
  Automaton.canonical h.wellFormed

/-- A step makes the move of the action on the terminal that is there. -/
theorem step (h : Deterministic g e) (origin : Position) (move : Move) (hi : m.states = i :: states)
    (hs : (Automaton.ofGrammar g)[i]? = some s) (ho : e.Only w m.cursor token)
    (hb : Within m.buffer (token :: input)) {action : Action}
    (hmaps : Maps s.actions token.terminal action)
    (hmove : move.leaf = action.move token.terminal) :
    ∃ buffer, Within buffer (token :: input) ∧
      (e.step w origin m).result = (e.perform w origin { m with buffer } i move).result := by
  have hd := Automaton.decides_planOf h.canonical h.emptyPairs h.distinct hs
    (h.conflictFree s (List.mem_of_getElem? hs)) hmaps
  rw [← hmove] at hd
  obtain ⟨buffer, hbuffer, hwalk⟩ := walk_of_decides ho hb (by rw [h.grammar_eq]; exact hd)
  refine ⟨buffer, hbuffer, step_of_walk hi ?_ hwalk⟩
  rw [h.table]
  exact Table.plan?_ofGrammar.2 ⟨s, hs, rfl⟩

/-- A terminal with a transition is shifted where it is there. -/
theorem shift (h : Deterministic g e) (hi : m.states = i :: states)
    (hs : (Automaton.ofGrammar g)[i]? = some s) (ho : e.Only w m.cursor token)
    (hb : Within m.buffer (token :: input)) {j : Nat} (he : (token.terminal, j) ∈ s.edges)
    (ht : token.terminal.isTerminal) :
    (e.step w origin m).result = .ok (.running
      (.at token.parsed.cursor (j :: m.states) (token.parsed.node :: m.nodes) [])) := by
  have hmem := List.mem_of_getElem? hs
  have hmaps : Maps s.actions token.terminal (.shift j) := by
    rw [h.canonical.actions hmem]
    exact State.maps_actionsOf.2 (.inr ⟨j, he, ht, rfl⟩)
  obtain ⟨buffer, hbuffer, hstep⟩ :=
    h.step origin (.shift j token.terminal 1) hi hs ho hb hmaps rfl
  obtain ⟨parser, hparser, hresult⟩ := ho token.terminal
    (by rw [h.grammar_eq]; exact h.canonical.mem_terminals hmem hmaps)
  rw [if_pos rfl] at hresult
  rw [hstep, perform, Executor.shift]
  rcases hbuffer with rfl | rfl
  · refine Traced.bind_eq_ok.2 ⟨parser, parserOf_eq_ok.2 hparser, ?_⟩
    refine Traced.bind_eq_ok.2 ⟨_, hresult, ?_⟩
    rfl
  · have hsupply : e.supply token.terminal 1 ((token :: input).take 1) =
        .buffered token.parsed [] := by
      simp [supply]
    dsimp only
    rw [hsupply]
    rfl

/-- A complete item before its lookahead is reduced. -/
theorem reduce (h : Deterministic g e) (origin : Position) {item : Item} {rule : Rule}
    (hr : g.rules[item.rule]? = some rule) (h0 : item.rule ≠ 0) {path : List Nat}
    (hpath : path.length = rule.rhs.length) {j : Nat} {t : State} {top : List Nat}
    (htop : path ++ i :: states = j :: top) (ht : (Automaton.ofGrammar g)[j]? = some t)
    (hitem : item ∈ t.items) (hcomplete : item.isComplete g)
    (hs : (Automaton.ofGrammar g)[i]? = some s) {target : Nat}
    (he : (rule.lhs, target) ∈ s.edges) {c : Cursor σ} {ns nodes : List Node}
    {buffer : List (Ahead σ)} (hns : ns.length = rule.rhs.length) (ho : e.Only w c token)
    (hla : item.lookahead = token.terminal) (hb : Within buffer (token :: input)) :
    ∃ kind buffer', g.kind rule.lhs = .ok kind ∧ Within buffer' (token :: input) ∧
      (e.step w origin (.at c (path ++ i :: states) (ns.reverse ++ nodes) buffer)).result =
        .ok (.running (.at c (target :: i :: states)
          (Node.make kind (childrenSpan ns (w.absolute c.position)) ns :: nodes) buffer')) := by
  have hrule := List.mem_of_getElem? hr
  have hmaps : Maps t.actions token.terminal (.reduce item.rule) := by
    rw [h.canonical.actions (List.mem_of_getElem? ht), ← hla]
    exact State.maps_actionsOf.2 (.inl ⟨item, hitem, hcomplete, rfl, if_neg h0⟩)
  obtain ⟨buffer', hbuffer', hstep⟩ := h.step origin (.reduce item.rule)
    (m := .at c (path ++ i :: states) (ns.reverse ++ nodes) buffer) htop ht ho hb hmaps rfl
  obtain ⟨kind, hkind⟩ := h.kind rule hrule
  refine ⟨kind, buffer', hkind, hbuffer', hstep.trans (reduce_eq_ok.2 ?_)⟩
  refine ⟨rule, i, states, target, kind, ?_, ?_, ?_, ?_, ?_, ?_⟩
  · rw [h.grammar_eq]
    exact hr
  · show rule.rhs.length ≤ (ns.reverse ++ nodes).length
    simp [hns]
  · exact List.drop_left' hpath
  · rw [h.table]
    exact (Table.goto?_ofGrammar h.wellFormed (h.wellFormed.lhs_nonTerminal rule hrule)).2
      ⟨s, hs, he⟩
  · rw [h.grammar_eq]
    exact hkind
  · have hlen : ns.reverse.length = rule.rhs.length := List.length_reverse.trans hns
    rw [folded, Machine.at, Machine.at, List.take_left' hlen, List.drop_left' hlen,
      List.reverse_reverse]

/-! ### Following a tree -/

/-- The next token of what follows some trees may stand before the rest of an item. -/
theorem mem_startsBefore (h : Deterministic g e) {ds : List (Derivation σ)} {symbols : List Handle}
    (hfits : FitsAll g ds symbols) {next : Ahead σ} (others : List (Ahead σ)) {b : Handle}
    (hb : next.terminal = b) :
    ∃ next' others', tokensAll ds ++ next :: others = next' :: others' ∧
      next'.terminal ∈ (First.ofGrammar g).startsBefore symbols [b] := by
  have hterminals : ∀ t ∈ (tokensAll ds).map (·.terminal), t.isTerminal := by
    intro t ht
    obtain ⟨token, htoken, rfl⟩ := List.mem_map.1 ht
    exact hfits.terminals token htoken
  have hmem := fun t => First.mem_startsBefore_of_derives (t := t) h.wellFormed hterminals
    hfits.derives (List.mem_singleton_self b)
  cases htokens : tokensAll ds with
  | nil =>
    refine ⟨next, others, rfl, hmem _ ?_⟩
    rw [htokens, hb]
    rfl
  | cons token tokens =>
    refine ⟨token, tokens ++ next :: others, rfl, hmem _ ?_⟩
    rw [htokens]
    rfl

mutual

/-- In a state that expects the symbol of a tree, before a terminal that may come after it, the
machine takes the tokens of the tree and goes over the symbol, with the result of the tree. -/
theorem follow (h : Deterministic g e) : ∀ {d : Derivation σ} {X : Handle}, Fits g d X →
    ∀ (states : List Nat) (nodes : List Node) {c : Cursor σ} {i : Nat} {buffer : List (Ahead σ)}
      {s : State} {item : Item} {rest : List Handle} {next : Ahead σ} {others : List (Ahead σ)},
    (Automaton.ofGrammar g)[i]? = some s → item ∈ s.items → item.rest g = X :: rest →
    e.Spells w c (d.tokens ++ next :: others) → Within buffer (d.tokens ++ next :: others) →
    next.terminal ∈ (First.ofGrammar g).startsBefore rest [item.lookahead] →
    ∃ j n buffer', (X, j) ∈ s.edges ∧ d.node g w c.position = .ok n ∧
      Within buffer' (next :: others) ∧
      e.Steps w origin (.at c (i :: states) nodes buffer)
        (.at (c.past d.tokens) (j :: i :: states) (n :: nodes) buffer')
  | .leaf token, X, hfit, states, nodes, c, i, buffer, s, item, rest, next, others, hs, hitem,
      hrest, hspell, hb, hnext => by
    rw [Fits] at hfit
    obtain ⟨rfl, ht⟩ := hfit
    rw [tokens_leaf] at hspell hb ⊢
    have hX : item.next? g = some token.terminal := Item.next?_eq_some.2 ⟨rest, hrest⟩
    obtain ⟨j, hj⟩ := h.canonical.exists_edge (List.mem_of_getElem? hs) hitem hX
    refine ⟨j, token.parsed.node, [], hj, by rw [node], .inl rfl, .single ?_⟩
    exact h.shift rfl hs hspell.1 hb hj ht
  | .branch id ds, X, hfit, states, nodes, c, i, buffer, s, item, rest, next, others, hs, hitem,
      hrest, hspell, hb, hnext => by
    rw [Fits] at hfit
    obtain ⟨rule, hr, rfl, hds⟩ := hfit
    rw [tokens_branch] at hspell hb ⊢
    have hmem := List.mem_of_getElem? hs
    have hX : item.next? g = some rule.lhs := Item.next?_eq_some.2 ⟨rest, hrest⟩
    obtain ⟨j, hj⟩ := h.canonical.exists_edge hmem hitem hX
    -- The initial item of the rule is in the state, with the next terminal as its lookahead.
    obtain ⟨kernel, hkernel⟩ := h.canonical.closed hmem
    have hinitial : ⟨id, 0, next.terminal⟩ ∈ s.items := by
      rw [hkernel] at hitem ⊢
      exact ItemSet.closure_closed h.wellFormed hitem hrest
        (h.wellFormed.lhs_nonTerminal rule (List.mem_of_getElem? hr)) hnext hr rfl
    have hrhs : g.rhs id = rule.rhs := by rw [Grammar.rhs, hr]; rfl
    obtain ⟨path, ns, buffer', top, below, t, hpath, hns, hb', htop, ht, hfinal, hsteps⟩ :=
      followAll h hds states nodes ⟨id, 0, next.terminal⟩ hs hinitial
        (by rw [Item.rest, List.drop_zero, hrhs]) hspell hb rfl
    -- The augmented rule is no branch below a symbol: no rule uses its nonterminal.
    have h0 : id ≠ 0 := by
      rintro rfl
      obtain ⟨parent, hparent, -, hdrop⟩ := Item.rest_eq_cons hrest
      exact h.fresh hr parent (List.mem_of_getElem? hparent)
        (List.mem_of_mem_drop (hdrop ▸ List.mem_cons_self))
    have hlen : ns.length = rule.rhs.length := (length_of_nodes hns).trans hds.length_eq
    have hcomplete : (Item.mk id ds.length next.terminal).isComplete g := by
      rw [Item.isComplete, Item.rest, hrhs, hds.length_eq, List.drop_length]
      rfl
    rw [Nat.zero_add] at hfinal
    obtain ⟨kind, buffer'', hkind, hb'', hstep⟩ := h.reduce origin hr h0
      (hpath.trans hds.length_eq) htop ht hfinal hcomplete hs hj hlen
      (spells_append.1 hspell).2.1 rfl hb'
    -- Without children no token was taken, and the branch stands where it began.
    have hspan : childrenSpan ns (w.absolute (c.past (tokensAll ds)).position) =
        childrenSpan ns (w.absolute c.position) := by
      refine childrenSpan_congr fun hnil => ?_
      subst hnil
      rw [List.length_eq_zero_iff.1 (length_of_nodes hns).symm, tokensAll_nil]
      rfl
    rw [hspan] at hstep
    exact ⟨j, _, buffer'', hj, node_branch hr hkind hns, hb'', hsteps.tail hstep⟩

/-- In a state that expects the symbols of some trees the machine follows one tree after the
other. -/
theorem followAll (h : Deterministic g e) : ∀ {ds : List (Derivation σ)} {symbols : List Handle},
    FitsAll g ds symbols →
    ∀ (states : List Nat) (nodes : List Node) (item : Item) {c : Cursor σ} {i : Nat}
      {buffer : List (Ahead σ)} {s : State} {next : Ahead σ} {others : List (Ahead σ)},
    (Automaton.ofGrammar g)[i]? = some s → item ∈ s.items → item.rest g = symbols →
    e.Spells w c (tokensAll ds ++ next :: others) →
    Within buffer (tokensAll ds ++ next :: others) → next.terminal = item.lookahead →
    ∃ path ns buffer' top below t, path.length = ds.length ∧
      Derivation.nodes g w ds c.position = .ok ns ∧ Within buffer' (next :: others) ∧
      path ++ i :: states = top :: below ∧ (Automaton.ofGrammar g)[top]? = some t ∧
      ⟨item.rule, item.dot + ds.length, item.lookahead⟩ ∈ t.items ∧
      e.Steps w origin (.at c (i :: states) nodes buffer)
        (.at (c.past (tokensAll ds)) (path ++ i :: states) (ns.reverse ++ nodes) buffer')
  | [], symbols, hfits, states, nodes, item, c, i, buffer, s, next, others, hs, hitem, hrest,
      hspell, hb, hnext => by
    rw [tokensAll_nil] at hspell hb ⊢
    exact ⟨[], [], buffer, i, states, s, rfl, nodes_nil, hb, rfl, hs, hitem, .refl⟩
  | d :: ds, symbols, hfits, states, nodes, item, c, i, buffer, s, next, others, hs, hitem, hrest,
      hspell, hb, hnext => by
    rw [FitsAll] at hfits
    obtain ⟨X, rest, rfl, hd, hds⟩ := hfits
    rw [tokensAll_cons, List.append_assoc] at hspell hb
    -- What comes after the first tree begins the tokens of the others, or comes after all of them.
    obtain ⟨next', others', heq, hmem⟩ := h.mem_startsBefore hds others hnext
    rw [heq] at hspell hb
    obtain ⟨j, n, buffer', hj, hn, hb', hsteps⟩ :=
      follow h hd states nodes hs hitem hrest hspell hb hmem
    obtain ⟨t, ht, hitems⟩ := h.canonical.edge (List.mem_of_getElem? hs) hj
    have hadvance : item.advance ∈ t.items := by
      rw [hitems]
      exact ItemSet.advance_mem_goto hitem (Item.next?_eq_some.2 ⟨rest, hrest⟩)
    have hrest' : item.advance.rest g = rest := by
      rw [Item.rest, Item.advance, ← List.drop_drop, ← Item.rest, hrest]
      rfl
    rw [← heq] at hspell hb'
    obtain ⟨path, ns, buffer'', top, below, t', hpath, hns, hb'', htop, ht', hfinal, hsteps'⟩ :=
      followAll h hds (i :: states) (n :: nodes) item.advance ht hadvance hrest'
        (spells_append.1 hspell).2 hb' hnext
    refine ⟨path ++ [j], n :: ns, buffer'', top, below, t', ?_, ?_, hb'', ?_, ht', ?_, ?_⟩
    · rw [List.length_append, hpath]
      rfl
    · exact nodes_cons_eq_ok.2 ⟨n, ns, rfl, hn, by rw [← position_past]; exact hns⟩
    · rw [List.append_assoc]
      exact htop
    · rw [List.length_cons, ← Nat.add_assoc, Nat.add_right_comm]
      exact hfinal
    · rw [tokensAll_cons, Cursor.past_append, List.append_assoc, List.reverse_cons,
        List.append_assoc]
      exact hsteps.trans hsteps'

end

/-- Behind the start symbol, at the end of input, the run is over. -/
theorem accept (h : Deterministic g e) {c : Cursor σ} {ending : Parsed σ}
    (ho : e.Only w c ⟨.endOfInput, ending⟩) {buffer : List (Ahead σ)}
    (hb : Within buffer [⟨.endOfInput, ending⟩]) (hs : (Automaton.ofGrammar g)[i]? = some s)
    {item : Item} (hitem : item ∈ s.items) (hcomplete : item.isComplete g) (h0 : item.rule = 0)
    (hla : item.lookahead = .endOfInput) (root : Node) :
    (e.step w origin (.at c (i :: states) [root] buffer)).result =
      .ok (.finished (some ⟨ending.state, root, ending.stop⟩)) := by
  have hmaps : Maps s.actions .endOfInput .accept := by
    rw [h.canonical.actions (List.mem_of_getElem? hs), ← hla]
    exact State.maps_actionsOf.2 (.inl ⟨item, hitem, hcomplete, rfl, if_pos h0⟩)
  obtain ⟨buffer', hb', hstep⟩ := h.step origin .accept
    (m := .at c (i :: states) [root] buffer) rfl hs ho hb hmaps rfl
  obtain ⟨parser, hparser, hresult⟩ := ho .endOfInput List.mem_cons_self
  rw [if_pos rfl] at hresult
  rw [hstep, perform]
  unfold Executor.accept
  rcases hb' with rfl | rfl
  · refine Traced.bind_eq_ok.2 ⟨parser, parserOf_eq_ok.2 hparser, ?_⟩
    exact Traced.bind_eq_ok.2 ⟨_, hresult, rfl⟩
  · rfl

/-- A run over the tokens of a derivation tree ends with the result of the tree. -/
theorem run (h : Deterministic g e) {d : Derivation σ} (hd : d.Fits g g.start) {c : Cursor σ}
    {ending : Parsed σ} (hspell : e.Spells w c (d.tokens ++ [⟨.endOfInput, ending⟩])) :
    ∃ node n, d.node g w c.position = .ok node ∧ ∀ limit ≥ n,
      (e.parser limit c.user w c.position).result =
        .ok (some ⟨ending.state, node, ending.stop⟩) := by
  obtain ⟨s, hs, hitems⟩ := h.canonical.start
  obtain ⟨lhs, hr⟩ := h.wellFormed.augmented
  have hrhs : g.rhs 0 = [g.start] := by rw [Grammar.rhs, hr]; rfl
  have hitem : ⟨0, 0, .endOfInput⟩ ∈ s.items := by
    rw [hitems]
    exact ItemSet.mem_closure.2 (.inr (List.mem_singleton_self _))
  have hrest : (Item.mk 0 0 .endOfInput).rest g = [g.start] := hrhs
  have hend : Handle.endOfInput ∈ (First.ofGrammar g).startsBefore [] [.endOfInput] :=
    First.mem_startsBefore.2 ⟨by simp, .inr ⟨fun _ h => (nomatch h), List.mem_singleton_self _⟩⟩
  obtain ⟨j, node, buffer, hj, hnode, hb, hsteps⟩ :=
    h.follow hd [] [] hs hitem hrest hspell (.inl rfl) hend
  obtain ⟨t, ht, hgoto⟩ := h.canonical.edge (List.mem_of_getElem? hs) hj
  have hfinal : ⟨0, 1, .endOfInput⟩ ∈ t.items := by
    rw [hgoto]
    exact ItemSet.advance_mem_goto hitem (Item.next?_eq_some.2 ⟨[], hrest⟩)
  have hcomplete : (Item.mk 0 1 .endOfInput).isComplete g := by
    rw [Item.isComplete, Item.rest, hrhs]
    rfl
  obtain ⟨n, hn⟩ := Steps.run hsteps
  refine ⟨node, n + 1, hnode, fun limit hlimit => ?_⟩
  obtain ⟨k, rfl⟩ := Nat.exists_eq_add_of_le hlimit
  rw [Nat.add_assoc, Nat.add_comm 1 k]
  refine (hn (k + 1)).trans ?_
  rw [Executor.run, Traced.bind_result,
    h.accept (spells_append.1 hspell).2.1 hb ht hfinal hcomplete rfl rfl node]
  rfl

end Deterministic

/-! ### The language -/

/-- Issued handles have names. -/
theorem exists_name {r : Registry} {h : Handle} (hi : (r.lookup? h).isSome) :
    ∃ name, r.name h = .ok name := by
  rw [Registry.name]
  split
  · exact ⟨_, rfl⟩
  · obtain ⟨symbols, hs⟩ := Option.isSome_iff_exists.1 hi
    rw [Registry.symbolsOf, hs]
    exact ⟨_, rfl⟩

/-- A nonterminal whose only rule leads back to it derives nothing else. -/
theorem eq_of_derives_of_loop {s : Handle} (h : ∀ rule ∈ g.rules, rule.lhs = s → rule.rhs = [s])
    {word : List Handle} (hd : g.Derives [s] word) : word = [s] := by
  induction hd with
  | refl => rfl
  | tail _ hstep ih =>
    subst ih
    obtain ⟨rule, hr, before, after, heq, rfl⟩ := hstep
    rcases List.singleton_eq_append_iff.1 heq with ⟨rfl, heq⟩ | ⟨-, heq⟩
    · cases heq
      rw [h rule hr rfl]
      rfl
    · cases heq

theorem distinct_of_terminals {r : Registry} {ts : List Handle}
    (h : ∀ t ∈ ts, ∀ u ∈ ts, t ≠ u → r.distinct t u) :
    ∀ t ∈ Handle.endOfInput :: ts, ∀ u ∈ Handle.endOfInput :: ts, t ≠ u → r.distinct t u := by
  intro t ht u hu hne
  rcases List.mem_cons.1 ht with rfl | ht
  · rw [Registry.distinct, if_neg hne]
    rfl
  · rcases List.mem_cons.1 hu with rfl | hu
    · rw [Registry.distinct, if_neg hne, if_pos (by simp [Handle.isEnd, Handle.endOfInput])]
    · exact h t ht u hu hne

/-- The conditions on a grammar that make its executor deterministic.  A grammar that derives a word
of terminals starts from a nonterminal of its own. -/
theorem deterministic {registry : Registry} {start : Handle} {rules : List Rule}
    {kinds : List (Handle × Kind)} (hg : Grammar.ofRules registry start rules kinds = .ok g)
    (hissued : ∀ rule ∈ rules, (g.registry.lookup? rule.lhs).isSome)
    (hpairs : g.registry.emptyPairs = [])
    (haugmented : ∀ rule ∈ rules, ∀ s ∈ rule.lhs :: rule.rhs,
      g.registry.find? [augmentedStart] ≠ some s)
    (hdistinct : ∀ t ∈ g.terminals, ∀ u ∈ g.terminals, t ≠ u → g.registry.distinct t u)
    (hconflict : ∀ s ∈ Automaton.ofGrammar g, s.hasConflict = false)
    (htable : e.table = Table.ofGrammar g) {word : List Handle} (hw : ∀ t ∈ word, t.isTerminal)
    (hword : g.Derives [g.start] word) : Deterministic g e := by
  have hwf := Grammar.WellFormed.of_ofRules hg
  obtain ⟨augmented, registry', hintern, rfl, -⟩ := Grammar.ofRules_eq_ok hg
  have hfind := (Registry.intern_spec hintern).1
  have hstart : start ≠ augmented := by
    rintro rfl
    have hloop := eq_of_derives_of_loop (fun rule hr hlhs => ?_) hword
    · have hterminal := hw start (hloop ▸ List.mem_singleton_self _)
      have hnon := hwf.lhs_nonTerminal _ List.mem_cons_self
      rw [Handle.isNonTerminal_eq, hterminal] at hnon
      cases hnon
    · rcases List.mem_cons.1 hr with rfl | hr
      · rfl
      · exact absurd (hlhs ▸ hfind) (haugmented rule hr rule.lhs List.mem_cons_self)
  refine
    { wellFormed := hwf
      table := htable
      emptyPairs := hpairs
      distinct := distinct_of_terminals hdistinct
      conflictFree := hconflict
      kind := fun rule hr => ?_
      fresh := fun {rule₀} h0 rule hr => ?_ }
  · rw [Grammar.kind]
    split
    · exact ⟨_, rfl⟩
    · next hnone =>
      rcases List.mem_cons.1 hr with rfl | hr
      · simp at hnone
      · obtain ⟨name, hname⟩ := exists_name (hissued rule hr)
        rw [hname]
        exact ⟨_, rfl⟩
  · cases h0
    rcases List.mem_cons.1 hr with rfl | hr
    · simpa using hstart.symm
    · exact fun hmem => haugmented rule hr augmented (List.mem_cons_of_mem _ hmem) hfind

/-- **Completeness.** Take a grammar without possibly empty terminals, whose rules do not use the
augmented nonterminal, whose terminals are distinct and whose automaton has no conflicts.  Where the
tokens of a word of its language are there one after the other, and then the end of input, and
nothing else is, the executor gives the result of the derivation tree of the word, and the end. -/
theorem parser_complete {registry : Registry} {start : Handle} {rules : List Rule}
    {kinds : List (Handle × Kind)} (hg : Grammar.ofRules registry start rules kinds = .ok g)
    (hissued : ∀ rule ∈ rules, (g.registry.lookup? rule.lhs).isSome)
    (hpairs : g.registry.emptyPairs = [])
    (haugmented : ∀ rule ∈ rules, ∀ s ∈ rule.lhs :: rule.rhs,
      g.registry.find? [augmentedStart] ≠ some s)
    (hdistinct : ∀ t ∈ g.terminals, ∀ u ∈ g.terminals, t ≠ u → g.registry.distinct t u)
    (hconflict : ∀ s ∈ Automaton.ofGrammar g, s.hasConflict = false)
    (ht : (Table.build g : Traced Fault Table).result = .ok e.table) {c : Cursor σ}
    {tokens : List (Ahead σ)} {ending : Parsed σ}
    (hspell : e.Spells w c (tokens ++ [⟨.endOfInput, ending⟩]))
    (hterminals : ∀ token ∈ tokens, token.terminal.isTerminal)
    (hword : g.Derives [g.start] (tokens.map (·.terminal))) :
    ∃ node n,
      (∃ d : Derivation σ, d.Fits g g.start ∧ d.tokens = tokens) ∧
      (∀ d : Derivation σ, d.Fits g g.start → d.tokens = tokens →
        d.node g w c.position = .ok node) ∧
      ∀ limit ≥ n, (e.parser limit c.user w c.position).result =
        .ok (some ⟨ending.state, node, ending.stop⟩) := by
  have htable : e.table = Table.ofGrammar g := by
    rw [Table.build_result] at ht
    exact (Except.ok.inj ht).symm
  have hw : ∀ t ∈ tokens.map (·.terminal), t.isTerminal := by
    intro t ht
    obtain ⟨token, htoken, rfl⟩ := List.mem_map.1 ht
    exact hterminals token htoken
  have h := deterministic hg hissued hpairs haugmented hdistinct hconflict htable hw hword
  obtain ⟨ds, hfits, hds⟩ := exists_fitsAll hterminals hword
  obtain ⟨d, rfl⟩ := List.length_eq_one_iff.1 hfits.length_eq
  rw [tokensAll_cons, tokensAll_nil, List.append_nil] at hds
  subst hds
  have hd := (fitsAll_cons.1 hfits).1
  obtain ⟨node, n, hnode, hrun⟩ := h.run hd hspell
  refine ⟨node, n, ⟨d, hd, rfl⟩, fun d' hd' htokens => ?_, hrun⟩
  -- The run does not depend on the tree, so every tree has its result.
  obtain ⟨node', n', hnode', hrun'⟩ := h.run hd' (htokens ▸ hspell)
  have heq := (hrun (max n n') (le_max_left n n')).symm.trans
    (hrun' (max n n') (le_max_right n n'))
  cases heq
  exact hnode'

/-! ### As many `a` as `b` -/

/-- The nonterminal `S` and the terminals `a` and `b`. -/
def nestRegistry : Registry := .ofLists ["S"] [["a"], ["b"]] [[⟨-1⟩, ⟨-2⟩]] []

/-- `S -> a S b` and `S ->`. -/
def nestRules : List Rule := [⟨⟨1⟩, [⟨-1⟩, ⟨1⟩, ⟨-2⟩]⟩, ⟨⟨1⟩, []⟩]

def nestGrammar : Grammar where
  registry := .ofLists ["S", augmentedStart] nestRegistry.terminals nestRegistry.groups []
  rules := ⟨⟨2⟩, [⟨1⟩]⟩ :: nestRules
  start := ⟨1⟩
  kinds := [(⟨2⟩, .transparent)]

def nestExecutor : Executor Nat where
  table := Table.ofGrammar nestGrammar
  terminals := [(⟨-1⟩, letter 'a'), (⟨-2⟩, letter 'b'), (.endOfInput, .endOfWindow)]
  config := {}

/-- The window on `ab`. -/
def nestWindow : Window := .ofSource (.ofText "ab")

/-- The tokens of `ab`. -/
def nestTokens : List (Ahead Nat) :=
  [⟨⟨-1⟩, 1, .token ⟨"a", ⟨⟨0, 0⟩, ⟨0, 1⟩⟩⟩, ⟨0, 1⟩⟩,
    ⟨⟨-2⟩, 2, .token ⟨"b", ⟨⟨0, 1⟩, ⟨0, 2⟩⟩⟩, ⟨0, 2⟩⟩]

def nestEnding : Parsed Nat := Parser.nothing 2 nestWindow ⟨0, 2⟩

theorem nest_derives : nestGrammar.Derives [⟨1⟩] [⟨-1⟩, ⟨-2⟩] := by
  refine .tail (.single ⟨⟨⟨1⟩, [⟨-1⟩, ⟨1⟩, ⟨-2⟩]⟩, by decide, [], [], rfl, rfl⟩) ?_
  exact ⟨⟨⟨1⟩, []⟩, by decide, [⟨-1⟩], [⟨-2⟩], rfl, rfl⟩

theorem nest_spells : nestExecutor.Spells nestWindow ⟨0, .zero⟩
    (nestTokens ++ [⟨.endOfInput, nestEnding⟩]) := by
  have hterminals : nestExecutor.table.grammar.terminals = [⟨-1⟩, ⟨-2⟩] := rfl
  refine ⟨?_, ?_, ?_, trivial⟩
  all_goals
    rw [Only, hterminals]
    simp only [List.forall_mem_cons, List.not_mem_nil, false_imp_iff, implies_true, and_true]
    exact ⟨⟨_, rfl, rfl⟩, ⟨_, rfl, rfl⟩, ⟨_, rfl, rfl⟩⟩

theorem nestParser_complete :
    Grammar.ofRules nestRegistry ⟨1⟩ nestRules [] = .ok nestGrammar ∧
      (∀ s ∈ Automaton.ofGrammar nestGrammar, s.hasConflict = false) ∧
      nestExecutor.Spells nestWindow ⟨0, .zero⟩ (nestTokens ++ [⟨.endOfInput, nestEnding⟩]) ∧
      nestGrammar.Derives [nestGrammar.start] (nestTokens.map (·.terminal)) ∧
      ∃ node n,
        (∃ d : Derivation Nat, d.Fits nestGrammar nestGrammar.start ∧ d.tokens = nestTokens) ∧
        (∀ d : Derivation Nat, d.Fits nestGrammar nestGrammar.start → d.tokens = nestTokens →
          d.node nestGrammar nestWindow .zero = .ok node) ∧
        ∀ limit ≥ n, (nestExecutor.parser limit 0 nestWindow .zero).result =
          .ok (some ⟨nestEnding.state, node, nestEnding.stop⟩) := by
  have hg : Grammar.ofRules nestRegistry ⟨1⟩ nestRules [] = .ok nestGrammar :=
    Grammar.eq_ok_of_registry rfl (Registry.eq_of_lists rfl rfl rfl rfl rfl)
  have hconflict : ∀ s ∈ Automaton.ofGrammar nestGrammar, s.hasConflict = false := by
    decide +kernel
  exact ⟨hg, hconflict, nest_spells, nest_derives,
    parser_complete hg (by decide) rfl (by decide +kernel) (by decide +kernel) hconflict rfl
      nest_spells (by decide) nest_derives⟩

end Executor

end Mixfix
