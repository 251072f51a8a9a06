import Mixfix.Proofs.Executor.Reading
import Mixfix.Proofs.Table

/-!
# Soundness of the executor

The stacks of a machine are a path of the automaton and the nodes of derivation trees for the
symbols of that path; the tokens of the trees are a chain from the start of the run to the place of
the machine, and the buffer goes on from there.  Every step keeps this, whichever leaf of its plan
it takes, so an accepted run has a derivation tree.

* `Executor.Consistent`: the invariant.
* `Executor.Consistent.step`: a step keeps it, or ends the run with the tree of a derivation.
* `Executor.parser_sound`: the result of a run is that of a derivation tree of the tokens taken.
-/

namespace Mixfix

namespace Executor

open Mixfix.Derivation

variable {σ : Type} {g : Grammar} {e : Executor σ} {w : Window}

/-- The stacks of a machine are a path and the results of derivation trees for its symbols, whose
tokens lead from the start of the run to the place of the machine. -/
structure Consistent (g : Grammar) (e : Executor σ) (w : Window) (c : Cursor σ) (m : Machine σ)
    (symbols : List Handle) (ds : List (Derivation σ)) : Prop where
  path : (Automaton.ofGrammar g).Path m.states symbols
  fits : FitsAll g ds symbols.reverse
  nodes : nodes g w ds c.position = .ok m.nodes.reverse
  chain : e.Chain w c (tokensAll ds) m.cursor
  buffered : e.Buffered w m.cursor m.buffer

/-- The answer of a run that began at a place: the result of a derivation tree of the start symbol
over a chain of tokens, and of the end of input after them. -/
def Answers (g : Grammar) (e : Executor σ) (w : Window) (c : Cursor σ) (parsed : Parsed σ) : Prop :=
  ∃ (d : Derivation σ) (last : Cursor σ) (ending : Parsed σ), d.Fits g g.start ∧
    e.Chain w c d.tokens last ∧ e.Reads w last .endOfInput ending ∧
    d.node g w c.position = .ok parsed.node ∧ parsed.state = ending.state ∧
    parsed.stop = ending.stop

/-- The machine after a reduction: its last nodes are one, and the stack of states has been cut back
and led on. -/
def folded (w : Window) (m : Machine σ) (n : Nat) (kind : Kind) (states : List Nat) : Machine σ :=
  { m with
    states
    nodes := Node.make kind (childrenSpan (m.nodes.take n).reverse (w.absolute m.position))
      (m.nodes.take n).reverse :: m.nodes.drop n }

/-- A reduction succeeds where the stacks are deep enough and the state below has a transition. -/
theorem reduce_eq_ok {m : Machine σ} {i id : Nat} {outcome : Outcome σ} :
    (e.reduce w m i id).result = .ok outcome ↔ ∃ rule below states target kind,
      e.table.grammar.rules[id]? = some rule ∧ rule.rhs.length ≤ m.nodes.length ∧
      m.states.drop rule.rhs.length = below :: states ∧
      e.table.goto? below rule.lhs = some target ∧ e.table.grammar.kind rule.lhs = .ok kind ∧
      outcome = .running (folded w m rule.rhs.length kind (target :: below :: states)) := by
  unfold reduce
  dsimp only
  cases e.table.grammar.rules[id]? with
  | none => exact ⟨fun h => (nomatch h), fun ⟨_, _, _, _, _, h, _⟩ => nomatch h⟩
  | some rule =>
    dsimp only
    split
    · -- One of the stacks is too short for the right-hand side.
      next hshort =>
      constructor
      · intro h
        obtain ⟨_, h, _⟩ := Traced.bind_eq_ok.1 h
        cases h
      · rintro ⟨_, below, states, _, _, ⟨⟩, hle, hdrop, -⟩
        have := congrArg List.length hdrop
        rw [List.length_drop, List.length_cons] at this
        omega
    · next hlong =>
      cases hdrop : m.states.drop rule.rhs.length with
      | nil =>
        refine ⟨fun h => (nomatch h), ?_⟩
        rintro ⟨_, _, _, _, _, ⟨⟩, -, h, -⟩
        cases hdrop.symm.trans h
      | cons below states =>
        dsimp only
        cases hgoto : e.table.goto? below rule.lhs with
        | none =>
          constructor
          · intro h
            obtain ⟨_, _, h⟩ := Traced.bind_eq_ok.1 h
            cases h
          · rintro ⟨_, _, _, _, _, ⟨⟩, -, h, h', -⟩
            cases hdrop.symm.trans h
            cases hgoto.symm.trans h'
        | some target =>
          constructor
          · intro h
            obtain ⟨_, -, h⟩ := Traced.bind_eq_ok.1 h
            obtain ⟨kind, hkind, h⟩ := Traced.bind_eq_ok.1 h
            cases h
            exact ⟨rule, below, states, target, kind, rfl, by omega, hdrop, hgoto, hkind, rfl⟩
          · rintro ⟨_, _, _, _, kind, ⟨⟩, -, h, h', hkind, rfl⟩
            cases hdrop.symm.trans h
            cases hgoto.symm.trans h'
            exact Traced.bind_eq_ok.2 ⟨(), rfl, Traced.bind_eq_ok.2 ⟨kind, hkind, rfl⟩⟩

theorem consistent_start (s : σ) (p : Position) :
    Consistent g e w ⟨s, p⟩ (start s p) [] [] where
  path := .start
  fits := fitsAll_nil.2 rfl
  nodes := nodes_nil
  chain := .nil _
  buffered := trivial

namespace Consistent

variable {c : Cursor σ} {m : Machine σ} {symbols : List Handle} {ds : List (Derivation σ)}

/-- A token that may be taken for a terminal goes on the stacks. -/
theorem push (h : Consistent g e w c m symbols ds) {i : Nat} {states : List Nat} {s : State}
    (hi : m.states = i :: states) (hs : (Automaton.ofGrammar g)[i]? = some s) {t : Handle}
    {target : Nat} (he : (t, target) ∈ s.edges) (ht : t.isTerminal) {parsed : Parsed σ}
    (htake : e.Takes w m.cursor ⟨t, parsed⟩) {buffer : List (Ahead σ)}
    (hb : e.Buffered w parsed.cursor buffer) :
    Consistent g e w c (push m parsed buffer target) (t :: symbols) (ds ++ [leaf ⟨t, parsed⟩]) where
  path := by
    have hp := h.path
    show (Automaton.ofGrammar g).Path (target :: m.states) (t :: symbols)
    rw [hi] at hp ⊢
    exact .step hp hs he
  fits := by
    rw [List.reverse_cons]
    refine h.fits.append (fitsAll_cons.2 ⟨?_, fitsAll_nil.2 rfl⟩)
    rw [Fits]
    exact ⟨rfl, ht⟩
  nodes := by
    refine nodes_append_eq_ok.2 ⟨m.nodes.reverse, [parsed.node], List.reverse_cons, h.nodes, ?_⟩
    exact nodes_cons_eq_ok.2 ⟨parsed.node, [], rfl, by rw [node], nodes_nil⟩
  chain := by
    rw [tokensAll_append, tokensAll_cons, tokens_leaf, tokensAll_nil]
    exact h.chain.append (.cons htake (.nil _))
  buffered := hb

/-- The trees of a right-hand side join under a branch. -/
theorem fold (h : Consistent g e w c m symbols ds) {id : Nat} {rule : Rule} {kind : Kind}
    (hr : g.rules[id]? = some rule) (hk : g.kind rule.lhs = .ok kind)
    (hle : rule.rhs.length ≤ symbols.length)
    (hrhs : (symbols.take rule.rhs.length).reverse = rule.rhs) {i j : Nat} {states : List Nat}
    {s : State} (hi : m.states.drop rule.rhs.length = i :: states)
    (hs : (Automaton.ofGrammar g)[i]? = some s) (he : (rule.lhs, j) ∈ s.edges) :
    ∃ ds', Consistent g e w c (folded w m rule.rhs.length kind (j :: i :: states))
      (rule.lhs :: symbols.drop rule.rhs.length) ds' := by
  have hsplit : symbols.reverse = (symbols.drop rule.rhs.length).reverse ++ rule.rhs := by
    conv_rhs => rw [← hrhs, ← List.reverse_append, List.length_reverse, List.length_take,
      Nat.min_eq_left hle, List.take_append_drop]
  have hfits := h.fits
  rw [hsplit] at hfits
  obtain ⟨below, children, rfl, hbelow, hchildren⟩ := hfits.split
  obtain ⟨ns, ns', hns, hnodes, hnodes'⟩ := nodes_append_eq_ok.1 h.nodes
  have hlen : ns'.reverse.length = rule.rhs.length := by
    rw [List.length_reverse, length_of_nodes hnodes', hchildren.length_eq]
  have hm : m.nodes = ns'.reverse ++ ns.reverse := by
    rw [← List.reverse_append, ← hns, List.reverse_reverse]
  rw [folded, hm, List.take_left' hlen, List.drop_left' hlen, List.reverse_reverse]
  -- Without children the branch stands at the place of the machine.
  have hspan : childrenSpan ns' (w.absolute m.position) =
      childrenSpan ns' (w.absolute (stopOf (tokensAll below) c.position)) := by
    refine childrenSpan_congr fun hnil => ?_
    subst hnil
    have hnil : children = [] := List.length_eq_zero_iff.1 (length_of_nodes hnodes').symm
    have hpos := h.chain.position
    rw [hnil, List.append_nil] at hpos
    exact congrArg w.absolute hpos
  refine ⟨below ++ [branch id children], ?_, ?_, ?_, ?_, h.buffered⟩
  · have hp := h.path.drop hle
    rw [hi] at hp
    exact .step hp hs he
  · rw [List.reverse_cons]
    refine hbelow.append (fitsAll_cons.2 ⟨?_, fitsAll_nil.2 rfl⟩)
    rw [Fits]
    exact ⟨rule, hr, rfl, hchildren⟩
  · rw [List.reverse_cons, List.reverse_reverse, hspan]
    refine nodes_append_eq_ok.2 ⟨ns, [_], rfl, hnodes, ?_⟩
    exact nodes_cons_eq_ok.2 ⟨_, [], rfl, node_branch hr hk hnodes', nodes_nil⟩
  · rw [tokensAll_append, tokensAll_cons, tokens_branch, tokensAll_nil, List.append_nil,
      ← tokensAll_append]
    exact h.chain

end Consistent

/-! ### Steps -/

/-- The outcome of a step: a consistent machine, an answer with its derivation, or none. An executor
that gives invalid trees may also answer without a derivation. -/
def Outcome.Sound (g : Grammar) (e : Executor σ) (w : Window) (c : Cursor σ) : Outcome σ → Prop
  | .running m => ∃ symbols ds, Consistent g e w c m symbols ds
  | .finished answer => e.config.invalid = none → ∀ parsed ∈ answer, Answers g e w c parsed

section

variable {c : Cursor σ} {m : Machine σ} {symbols : List Handle} {ds : List (Derivation σ)}
  {origin : Position} {i : Nat} {states : List Nat} {s : State} {outcome : Outcome σ}

theorem giveUp_sound (h : (e.giveUp w origin m).result = .ok outcome) :
    outcome.Sound g e w c := by
  rw [giveUp] at h
  split at h
  · cases h
    exact fun _ _ h => nomatch h
  · next hinvalid =>
    obtain ⟨_, -, h⟩ := Traced.bind_eq_ok.1 h
    cases h
    exact fun hnone => nomatch hinvalid.symm.trans hnone

/-- Where the token of a shift comes from. -/
theorem supply_cases (e : Executor σ) (t : Handle) (munch : Nat) (buffer : List (Ahead σ)) :
    match e.supply t munch buffer with
    | .empty => munch = 0 ∨ (e.table.grammar.registry.nonEmptyOf t).isSome
    | .buffered parsed others => ∃ token, buffer = token :: others ∧ token.parsed = parsed ∧
        (token.terminal = t ∨ e.table.grammar.registry.nonEmptyOf t = some token.terminal)
    | .unread => buffer = []
    | .other => True := by
  unfold supply
  by_cases hm : munch = 0
  · rw [if_pos hm]
    exact .inl hm
  · rw [if_neg hm]
    cases buffer with
    | nil => rfl
    | cons token others =>
      dsimp only
      split_ifs with hown hnon
      · exact ⟨token, rfl, rfl, hown⟩
      · exact .inr hnon
      · trivial

/-- A shift gives up, or puts a token on the stacks that may be taken for the terminal. -/
theorem shift_result (hb : e.Buffered w m.cursor m.buffer) {target munch : Nat} {t : Handle}
    (hmunch : munch = 0 → (e.table.grammar.registry.nonEmptyOf t).isSome)
    (h : (e.shift w origin m i target t munch).result = .ok outcome) :
    (e.giveUp w origin m).result = .ok outcome ∨
      ∃ parsed buffer, outcome = .running (Executor.push m parsed buffer target) ∧
        e.Takes w m.cursor ⟨t, parsed⟩ ∧ e.Buffered w parsed.cursor buffer := by
  have hsupply := supply_cases e t munch m.buffer
  rw [shift] at h
  split at h
  · exact .inl h
  · -- Nothing is taken: the plan says so, or another terminal was read where this one may be empty.
    next heq =>
    rw [heq] at hsupply
    obtain ⟨_, -, h⟩ := Traced.bind_eq_ok.1 h
    cases h
    exact .inr ⟨_, _, rfl, .empty (hsupply.elim hmunch id), hb⟩
  · -- The token was read before, for the terminal or for its non-empty variant.
    next parsed others heq =>
    rw [heq] at hsupply
    obtain ⟨_, -, h⟩ := Traced.bind_eq_ok.1 h
    cases h
    obtain ⟨token, hbuffer, rfl, htoken⟩ := hsupply
    rw [hbuffer] at hb
    refine .inr ⟨_, _, rfl, ?_, hb.2⟩
    rcases htoken with rfl | hnon
    · exact .own hb.1
    · exact .variant hnon hb.1
  · -- Nothing was read ahead, so the parser of the terminal runs now.
    next heq =>
    obtain ⟨parser, hparser, h⟩ := Traced.bind_eq_ok.1 h
    obtain ⟨answer, hanswer, h⟩ := Traced.bind_eq_ok.1 h
    cases answer with
    | none => exact .inl h
    | some parsed =>
      obtain ⟨_, -, h⟩ := Traced.bind_eq_ok.1 h
      cases h
      exact .inr ⟨_, _, rfl, .own ⟨parser, parserOf_eq_ok.1 hparser, hanswer⟩, trivial⟩

/-- Whatever supplies the token of a shift, it may be taken for the terminal. -/
theorem shift_sound (ht : e.table.grammar = g) (hc : Consistent g e w c m symbols ds)
    (hi : m.states = i :: states) (hs : (Automaton.ofGrammar g)[i]? = some s) {target munch : Nat}
    {t : Handle} (hback : (Plan.shift target t munch).Backed g s)
    (h : (e.shift w origin m i target t munch).result = .ok outcome) :
    outcome.Sound g e w c := by
  obtain ⟨hedge, hterminal, hmunch⟩ := hback
  rw [← ht] at hmunch
  rcases shift_result hc.buffered hmunch h with h | ⟨parsed, buffer, rfl, htake, hb⟩
  · exact giveUp_sound h
  · exact ⟨_, _, hc.push hi hs hedge hterminal htake hb⟩

theorem reduce_sound (hg : g.WellFormed) (ht : e.table = Table.ofGrammar g)
    (hc : Consistent g e w c m symbols ds) (hi : m.states = i :: states)
    (hs : (Automaton.ofGrammar g)[i]? = some s) {id : Nat} (hback : (Plan.reduce id).Backed g s)
    (h : (e.reduce w m i id).result = .ok outcome) : outcome.Sound g e w c := by
  obtain ⟨-, item, hitem, hcomplete, rfl⟩ := hback
  obtain ⟨rule, below, rest, target, kind, hr, -, hdrop, hgoto, hkind, rfl⟩ := reduce_eq_ok.1 h
  have htg : e.table.grammar = g := by rw [ht]; rfl
  rw [htg] at hr hkind
  rw [ht] at hgoto
  have hrhs : g.rhs item.rule = rule.rhs := by rw [Grammar.rhs, hr]; rfl
  obtain ⟨hle, htake⟩ := hc.path.rhs_of_complete (Automaton.canonical hg) (by rw [hi]; rfl) hs
    hitem hcomplete
  rw [hrhs] at hle htake
  obtain ⟨s', hs', he⟩ := (Table.goto?_ofGrammar hg
    (hg.lhs_nonTerminal rule (List.mem_of_getElem? hr))).1 hgoto
  obtain ⟨ds', hc'⟩ := hc.fold hr hkind hle htake hdrop hs' he
  exact ⟨_, ds', hc'⟩

/-- An accepting move gives up, or finds the end of input and a single node. -/
theorem accept_result (hb : e.Buffered w m.cursor m.buffer)
    (h : (e.accept w origin m i).result = .ok outcome) :
    (e.giveUp w origin m).result = .ok outcome ∨
      ∃ ending root, e.Reads w m.cursor .endOfInput ending ∧ m.nodes = [root] ∧
        outcome = .finished (some ⟨ending.state, root, ending.stop⟩) := by
  unfold accept at h
  extract_lets conclude at h
  have hconclude : ∀ {answer : Option (Parsed σ)}, (conclude answer).result = .ok outcome →
      (∀ ending ∈ answer, e.Reads w m.cursor .endOfInput ending) →
      (e.giveUp w origin m).result = .ok outcome ∨
        ∃ ending root, e.Reads w m.cursor .endOfInput ending ∧ m.nodes = [root] ∧
          outcome = .finished (some ⟨ending.state, root, ending.stop⟩) := by
    intro answer h hreads
    cases answer with
    | none => exact .inl h
    | some ending =>
      simp only [conclude] at h
      split at h
      · next root hnodes =>
        obtain ⟨_, -, h⟩ := Traced.bind_eq_ok.1 h
        cases h
        exact .inr ⟨ending, root, hreads ending rfl, hnodes, rfl⟩
      · cases h
  cases hbuffer : m.buffer with
  | cons token others =>
    rw [hbuffer] at h hb
    obtain ⟨answer, hanswer, h⟩ := Traced.bind_eq_ok.1 h
    refine hconclude h fun ending hending => ?_
    cases hanswer
    rw [Option.mem_def] at hending
    split at hending
    · next hend =>
      cases hending
      rw [← hend]
      exact hb.1
    · cases hending
  | nil =>
    rw [hbuffer] at h
    obtain ⟨parser, hparser, h⟩ := Traced.bind_eq_ok.1 h
    obtain ⟨answer, hanswer, h⟩ := Traced.bind_eq_ok.1 h
    refine hconclude h fun ending hending => ⟨parser, parserOf_eq_ok.1 hparser, ?_⟩
    exact hanswer.trans (congrArg Except.ok hending)

/-- Where the augmented rule is complete, the stack holds the tree of the start symbol alone. -/
theorem accept_sound (hg : g.WellFormed) (hc : Consistent g e w c m symbols ds)
    (hi : m.states = i :: states) (hs : (Automaton.ofGrammar g)[i]? = some s)
    (hback : Plan.accept.Backed g s) (h : (e.accept w origin m i).result = .ok outcome) :
    outcome.Sound g e w c := by
  obtain ⟨item, hitem, hcomplete, h0⟩ := hback
  rcases accept_result hc.buffered h with h | ⟨ending, root, hreads, hnodes, rfl⟩
  · exact giveUp_sound h
  obtain ⟨lhs, hr⟩ := hg.augmented
  have hrhs : g.rhs item.rule = [g.start] := by rw [h0, Grammar.rhs, hr]; rfl
  obtain ⟨hle, htake⟩ := hc.path.rhs_of_complete (Automaton.canonical hg) (by rw [hi]; rfl) hs
    hitem hcomplete
  rw [hrhs] at hle htake
  have hds := hc.nodes
  rw [hnodes] at hds
  -- One node is on the stack, so the path has one symbol, which the augmented rule leads to.
  have hlen : symbols.length = 1 := by
    rw [← List.length_reverse, ← hc.fits.length_eq, ← length_of_nodes hds]
    rfl
  obtain ⟨X, rfl⟩ := List.length_eq_one_iff.1 hlen
  cases htake
  have hfits := hc.fits
  obtain ⟨d, rfl⟩ :=
    List.length_eq_one_iff.1 (hfits.length_eq.trans (List.length_reverse.trans hlen))
  obtain ⟨n, _, hn, hnode, -⟩ := nodes_cons_eq_ok.1 hds
  cases hn
  have hchain := hc.chain
  rw [tokensAll_cons, tokensAll_nil, List.append_nil] at hchain
  rintro - parsed hparsed
  cases hparsed
  exact ⟨d, m.cursor, ending, (fitsAll_cons.1 hfits).1, hchain, hreads, hnode, rfl, rfl⟩

/-- A step keeps a machine consistent, or ends with the result of a derivation. -/
theorem Consistent.step (hg : g.WellFormed) (ht : e.table = Table.ofGrammar g)
    (hc : Consistent g e w c m symbols ds)
    (h : (e.step w origin m).result = .ok outcome) : outcome.Sound g e w c := by
  have htg : e.table.grammar = g := by rw [ht]; rfl
  unfold Executor.step at h
  split at h
  · cases h
  · next i states hi =>
    split at h
    · cases h
    · next plan hplan =>
      rw [ht] at hplan
      obtain ⟨s, hs, rfl⟩ := Table.plan?_ofGrammar.1 hplan
      obtain ⟨answer, hanswer, h⟩ := Traced.bind_eq_ok.1 h
      cases answer with
      | none => exact giveUp_sound h
      | some answer =>
        obtain ⟨move, buffer⟩ := answer
        obtain ⟨hleaf, hb⟩ := walk_result hanswer
        have hback := Automaton.backed_of_mem_leaves (Automaton.canonical hg) hs hleaf
        -- The reads of the walk change the buffer alone.
        have hc' : Consistent g e w c { m with buffer } symbols ds :=
          ⟨hc.path, hc.fits, hc.nodes, hc.chain, hb hc.buffered⟩
        cases move with
        | shift target t munch => exact shift_sound htg hc' hi hs hback h
        | reduce id => exact reduce_sound hg ht hc' hi hs hback h
        | accept => exact accept_sound hg hc' hi hs hback h

/-- What every step keeps, a run keeps up to its answer. -/
theorem Consistent.run (hg : g.WellFormed) (ht : e.table = Table.ofGrammar g)
    (hinvalid : e.config.invalid = none) {limit : Nat} (hc : Consistent g e w c m symbols ds)
    {parsed : Parsed σ} (h : (e.run w origin limit m).result = .ok (some parsed)) :
    Answers g e w c parsed := by
  induction limit generalizing m symbols ds with
  | zero => cases h
  | succ limit ih =>
    rw [Executor.run, Traced.bind_eq_ok] at h
    obtain ⟨outcome, houtcome, h⟩ := h
    have hsound := hc.step hg ht houtcome
    cases outcome with
    | finished answer =>
      cases h
      exact hsound hinvalid parsed rfl
    | running m' =>
      obtain ⟨symbols', ds', hc'⟩ := hsound
      exact ih hc' h

end

/-- **Soundness.** A result of the executor comes from a word of terminals that the start symbol
derives.  Its terminals were taken one after the other, each by its own parser, by that of its
non-empty variant or for nothing; the end of input follows; and the node is that of a derivation
tree of the word. -/
theorem parser_sound {registry : Registry} {start : Handle} {rules : List Rule}
    {kinds : List (Handle × Kind)} (hg : Grammar.ofRules registry start rules kinds = .ok g)
    (ht : (Table.build g : Traced Fault Table).result = .ok e.table)
    (hinvalid : e.config.invalid = none) {limit : Nat} {s : σ} {p : Position} {parsed : Parsed σ}
    (h : (e.parser limit s w p).result = .ok (some parsed)) :
    ∃ (tokens : List (Ahead σ)) (last : Cursor σ) (ending : Parsed σ) (d : Derivation σ),
      g.Derives [g.start] (tokens.map (·.terminal)) ∧
      (∀ token ∈ tokens, token.terminal.isTerminal) ∧
      e.Chain w ⟨s, p⟩ tokens last ∧ e.Reads w last .endOfInput ending ∧
      parsed.state = ending.state ∧ parsed.stop = ending.stop ∧
      d.Fits g g.start ∧ d.tokens = tokens ∧ d.node g w p = .ok parsed.node := by
  have htable : e.table = Table.ofGrammar g := by
    rw [Table.build_result] at ht
    exact (Except.ok.inj ht).symm
  obtain ⟨d, last, ending, hfits, hchain, hreads, hnode, hstate, hstop⟩ :=
    (consistent_start s p).run (.of_ofRules hg) htable hinvalid h
  exact ⟨d.tokens, last, ending, d, hfits.derives, hfits.terminals, hchain, hreads, hstate, hstop,
    hfits, rfl, hnode⟩

/-! ### Lists of `b`, each after a possible `a` -/

/-- The nonterminal `L` and the terminals `a?`, `a` and `b`, the first of them possibly empty. -/
def listRegistry : Registry :=
  .ofLists ["L"] [["a?"], ["a"], ["b"]] [[⟨-2⟩, ⟨-3⟩]] [(⟨-1⟩, ⟨-2⟩)]

/-- `L -> a? b L` and `L -> a? b`. -/
def listRules : List Rule := [⟨⟨1⟩, [⟨-1⟩, ⟨-3⟩, ⟨1⟩]⟩, ⟨⟨1⟩, [⟨-1⟩, ⟨-3⟩]⟩]

def listGrammar : Grammar where
  registry := .ofLists ["L", augmentedStart] listRegistry.terminals listRegistry.groups
    listRegistry.emptyPairs
  rules := ⟨⟨2⟩, [⟨1⟩]⟩ :: listRules
  start := ⟨1⟩
  kinds := [(⟨2⟩, .transparent)]

theorem listGrammar_ofRules : Grammar.ofRules listRegistry ⟨1⟩ listRules [] = .ok listGrammar :=
  Grammar.eq_ok_of_registry rfl (Registry.eq_of_lists rfl rfl rfl rfl rfl)

/-- A letter; the user's state counts them. -/
def letter (c : Char) : Parser Nat := fun s w p => do
  return (← Parser.token (.literal [c]) (String.singleton c) s w p).map
    fun parsed => { parsed with state := s + 1 }

def listExecutor : Executor Nat where
  table := Table.ofGrammar listGrammar
  terminals := [(⟨-1⟩, .optional (letter 'a')), (⟨-2⟩, letter 'a'), (⟨-3⟩, letter 'b'),
    (.endOfInput, .endOfWindow)]
  config := {}

/-- The tree of `bab`: the first `b` has no `a` before it. -/
def listParsed : Parsed Nat where
  state := 3
  node := .tree (.tagged "L") ⟨⟨0, 0⟩, ⟨0, 3⟩⟩
    [.token ⟨"b", ⟨⟨0, 0⟩, ⟨0, 1⟩⟩⟩,
      .tree (.tagged "L") ⟨⟨0, 1⟩, ⟨0, 3⟩⟩
        [.token ⟨"a", ⟨⟨0, 1⟩, ⟨0, 2⟩⟩⟩, .token ⟨"b", ⟨⟨0, 2⟩, ⟨0, 3⟩⟩⟩]]
  stop := ⟨0, 3⟩

/-- The window on `bab`. -/
def listWindow : Window := .ofSource (.ofText "bab")

set_option maxRecDepth 4000 in
theorem listParser_sound :
    Grammar.ofRules listRegistry ⟨1⟩ listRules [] = .ok listGrammar ∧
      (listExecutor.parser 20 0 listWindow .zero).result = .ok (some listParsed) ∧
      ∃ (tokens : List (Ahead Nat)) (last : Cursor Nat) (ending : Parsed Nat) (d : Derivation Nat),
        listGrammar.Derives [listGrammar.start] (tokens.map (·.terminal)) ∧
        (∀ token ∈ tokens, token.terminal.isTerminal) ∧
        listExecutor.Chain listWindow ⟨0, .zero⟩ tokens last ∧
        listExecutor.Reads listWindow last .endOfInput ending ∧
        listParsed.state = ending.state ∧ listParsed.stop = ending.stop ∧
        d.Fits listGrammar listGrammar.start ∧ d.tokens = tokens ∧
        d.node listGrammar listWindow .zero = .ok listParsed.node := by
  have h : (listExecutor.parser 20 0 listWindow .zero).result = .ok (some listParsed) := rfl
  exact ⟨listGrammar_ofRules, h, parser_sound listGrammar_ofRules rfl rfl h⟩

end Executor

end Mixfix
