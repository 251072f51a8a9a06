import Mixfix.Proofs.Executor.Completeness
import Mixfix.Proofs.Plan.Selection

/-!
# Executors that decide every state

Where the plans have no conflicts and the terminals that they read exclude each other, the machine
makes the moves of a run of the automaton. A possibly empty terminal takes a token of its non-empty
variant if one is there, so what comes after it must not begin with such a token.

* `Executor.Laid`: a row of tokens is there, and no other terminal that is never empty.
* `Executor.walk_of_comes`: a walk follows what its plan comes to.
* `Executor.Decisive`: the conditions on the executor.
* `Executor.Decisive.exists_ending`: the machine follows a run of the automaton to its end.
* `Executor.Decisive.returns`: words of the language are parsed, whichever way they are spelt.
-/

namespace Mixfix

/-- After a possibly empty terminal comes one that is never empty, and is not its variant. -/
def Registry.Separate (r : Registry) (word : List Handle) : Prop :=
  word.IsChain fun t u => (r.nonEmptyOf t).isSome → r.nonEmptyOf u = none ∧ u ≠ r.tokenOf t

namespace Parser

variable {σ : Type} {parser : Parser σ} {s : σ} {w : Window} {p : Position} {parsed : Parsed σ}

theorem optional_of_some (h : (parser s w p).result = .ok (some parsed)) :
    (optional parser s w p).result = .ok (some parsed) :=
  Traced.bind_eq_ok.2 ⟨_, h, rfl⟩

theorem optional_of_none (h : (parser s w p).result = .ok none) :
    (optional parser s w p).result = .ok (some (nothing s w p)) :=
  Traced.bind_eq_ok.2 ⟨_, h, rfl⟩

end Parser

namespace Executor

open Ascending Automaton

variable {σ : Type} {g : Grammar} {e : Executor σ} {w : Window} {origin : Position}

/-- A terminal with a parser that is never empty. -/
def Told (e : Executor σ) (t : Handle) : Prop :=
  e.table.grammar.registry.nonEmptyOf t = none ∧ (e.terminals.lookup t).isSome

/-- At a place the token is there, and no other terminal that is never empty. -/
structure Sole (e : Executor σ) (w : Window) (c : Cursor σ) (token : Ahead σ) : Prop where
  told : e.Told token.terminal
  result : ∀ {t parser}, e.Told t → e.terminals.lookup t = some parser →
    (parser c.user w c.position).result =
      .ok (if t = token.terminal then some token.parsed else none)

/-- From a place on the tokens follow one another, each the sole one that is there. -/
def Laid (e : Executor σ) (w : Window) : Cursor σ → List (Ahead σ) → Prop
  | _, [] => True
  | c, token :: tokens => e.Sole w c token ∧ Laid e w token.parsed.cursor tokens

theorem laid_append {c : Cursor σ} {ts us : List (Ahead σ)} :
    e.Laid w c (ts ++ us) ↔ e.Laid w c ts ∧ e.Laid w (c.past ts) us := by
  induction ts generalizing c with
  | nil => exact ⟨fun h => ⟨trivial, h⟩, And.right⟩
  | cons t ts ih => rw [List.cons_append, Laid, Laid, ih, Cursor.past_cons, and_assoc]

theorem Sole.exists_bound {c : Cursor σ} {token : Ahead σ} (h : e.Sole w c token) {t : Handle}
    (ht : e.Told t) : ∃ parser, e.terminals.lookup t = some parser ∧
      (parser c.user w c.position).result =
        .ok (if t = token.terminal then some token.parsed else none) := by
  obtain ⟨parser, hparser⟩ := Option.isSome_iff_exists.1 ht.2
  exact ⟨parser, hparser, h.result ht hparser⟩

/-! ### Walking -/

theorem walkBranch_of_branch? {m : Machine σ} {branches : List (List Handle × Plan)} {t : Handle}
    {plan : Plan} (h : Plan.branch? branches t = some plan) (depth : Nat)
    (buffer : List (Ahead σ)) :
    e.walkBranch w m branches t depth buffer = e.walk w m plan depth buffer := by
  induction branches with
  | nil => cases h
  | cons branch branches ih =>
    obtain ⟨cls, plan'⟩ := branch
    rw [walkBranch]
    rw [Plan.branch?, List.find?_cons] at h
    by_cases ht : cls.contains t
    · rw [if_pos ht]
      simp only [ht, Option.map_some, Option.some.injEq] at h
      rw [h]
    · rw [if_neg ht]
      refine ih ?_
      rw [Plan.branch?]
      simpa only [ht] using h

/-- Every read of the plan tries different terminals, none of which is possibly empty. -/
def Apart (e : Executor σ) (plan : Plan) : Prop :=
  ∀ node ∈ plan.reads, node.flatten.Nodup ∧ ∀ t ∈ node.flatten, e.Told t

/-- The token at a depth is read: it is in the buffer, or the scan finds it. -/
theorem read_of_laid {m : Machine σ} {ts : List Handle} (hn : ts.Nodup)
    (htold : ∀ t ∈ ts, e.Told t) {buffer before after : List (Ahead σ)} {token : Ahead σ}
    (hlaid : e.Laid w m.cursor (before ++ token :: after))
    (hbuffer : buffer <+: before ++ token :: after) (hdepth : before.length ≤ buffer.length)
    (ht : token.terminal ∈ ts) :
    ∃ buffer', buffer' <+: before ++ token :: after ∧ before.length < buffer'.length ∧
      (e.read w m ts before.length buffer).result = .ok (some (token.terminal, buffer')) := by
  obtain ⟨more, rfl⟩ :=
    List.prefix_of_prefix_length_le (List.prefix_append before _) hbuffer hdepth
  have hmore := (List.prefix_append_right_inj before).1 hbuffer
  rw [read_eq]
  cases more with
  | nil =>
    have hsole := (laid_append.1 hlaid).2.1
    refine ⟨before ++ [token], ?_, by simp, ?_⟩
    · rw [List.prefix_append_right_inj]
      exact List.cons_prefix_cons.2 ⟨rfl, List.nil_prefix⟩
    · rw [List.append_nil, List.getElem?_eq_none (Nat.le_refl _)]
      refine Traced.bind_eq_ok.2 ⟨some token, ?_, rfl⟩
      rw [← if_pos ht (t := some token) (e := none)]
      exact scan_of_only (fun t ht => hsole.exists_bound (htold t ht)) hn fun _ => rfl
  | cons b more =>
    obtain ⟨rfl, -⟩ := List.cons_prefix_cons.1 hmore
    refine ⟨before ++ b :: more, hbuffer, by simp, ?_⟩
    rw [List.getElem?_append_right (Nat.le_refl _), Nat.sub_self]
    rfl

/-- A walk comes to the move that its plan comes to under the tokens that are there. -/
theorem walk_of_comes {m : Machine σ} {tokens : List (Ahead σ)} (hlaid : e.Laid w m.cursor tokens)
    {plan leaf : Plan} {word : List Handle} (h : plan.Comes word leaf) {move : Move}
    (hmove : move.leaf = leaf) (hapart : e.Apart plan) {before after buffer : List (Ahead σ)}
    (htokens : tokens = before ++ after) (hword : word = after.map (·.terminal))
    (hbuffer : buffer <+: tokens) (hdepth : before.length ≤ buffer.length) :
    ∃ buffer', buffer' <+: tokens ∧
      (e.walk w m plan before.length buffer).result = .ok (some (move, buffer')) := by
  induction h generalizing before after buffer with
  | leaf c word =>
    rw [← hmove]
    exact ⟨buffer, hbuffer, walk_leaf m move _ buffer⟩
  | @read branches t word plan leaf hbranch _ ih =>
    obtain ⟨token, after, rfl⟩ : ∃ token after', after = token :: after' := by
      cases after with
      | nil => cases hword
      | cons token after => exact ⟨token, after, rfl⟩
    obtain ⟨rfl, rfl⟩ := List.cons.inj hword
    subst htokens
    obtain ⟨cls, hcls, ht⟩ := Plan.mem_of_branch? hbranch
    obtain ⟨hn, htold⟩ := hapart (branches.map (·.1)) (by rw [Plan.reads]; exact List.mem_cons_self)
    rw [← List.flatMap_def] at hn htold
    obtain ⟨buffer', hbuffer', hlt, hread⟩ := read_of_laid hn htold hlaid hbuffer hdepth
      (List.mem_flatMap.2 ⟨_, hcls, ht⟩)
    have hapart' : e.Apart plan := by
      intro node hnode
      refine hapart node ?_
      rw [Plan.reads]
      exact List.mem_cons_of_mem _ (Plan.mem_readsAll.2 ⟨_, hcls, hnode⟩)
    obtain ⟨buffer'', hbuffer'', hwalk⟩ := ih hmove hapart'
      (List.append_cons before token after) rfl hbuffer' (by rw [List.length_append]; exact hlt)
    refine ⟨buffer'', hbuffer'', ?_⟩
    rw [walk]
    refine Traced.bind_eq_ok.2 ⟨_, hread, ?_⟩
    dsimp only
    rw [walkBranch_of_branch? hbranch]
    rw [List.length_append] at hwalk
    exact hwalk

/-! ### Halting -/

/-- The run of the machine ends with the answer, given enough moves. -/
def Ending (e : Executor σ) (w : Window) (origin : Position) (m : Machine σ)
    (answer : Option (Parsed σ)) : Prop :=
  ∃ n, ∀ limit ≥ n, (e.run w origin limit m).result = .ok answer

theorem Ending.of_finished {m : Machine σ} {answer : Option (Parsed σ)}
    (hstep : (e.step w origin m).result = .ok (.finished answer)) : e.Ending w origin m answer := by
  refine ⟨1, fun limit hlimit => ?_⟩
  obtain ⟨limit, rfl⟩ := Nat.exists_eq_add_of_le' hlimit
  rw [run, Traced.bind_result, hstep]
  rfl

theorem Ending.of_running {m m' : Machine σ} {answer : Option (Parsed σ)}
    (h : e.Ending w origin m' answer)
    (hstep : (e.step w origin m).result = .ok (.running m')) : e.Ending w origin m answer := by
  obtain ⟨n, hn⟩ := h
  refine ⟨n + 1, fun limit hlimit => ?_⟩
  obtain ⟨limit, rfl⟩ := Nat.exists_eq_add_of_le' (Nat.le_trans (Nat.le_add_left 1 n) hlimit)
  rw [run, Traced.bind_result, hstep]
  exact hn limit (Nat.le_of_succ_le_succ hlimit)

/-- A run that ends within a limit ends with the same answer under every larger one. -/
theorem ending_of_run {limit : Nat} {m : Machine σ} {answer : Option (Parsed σ)}
    (h : (e.run w origin limit m).result = .ok answer) : e.Ending w origin m answer := by
  induction limit generalizing m with
  | zero => cases h
  | succ limit ih =>
    rw [run, Traced.bind_eq_ok] at h
    obtain ⟨outcome, hstep, h⟩ := h
    cases outcome with
    | finished answer =>
      cases h
      exact .of_finished hstep
    | running m' => exact (ih h).of_running hstep

/-- The parser gives the answer, given enough moves. -/
def Returns (e : Executor σ) (s : σ) (w : Window) (p : Position) (answer : Option (Parsed σ)) :
    Prop :=
  ∃ n, ∀ limit ≥ n, (e.parser limit s w p).result = .ok answer

theorem returns_iff {s : σ} {p : Position} {answer : Option (Parsed σ)} :
    e.Returns s w p answer ↔ ∃ limit, (e.parser limit s w p).result = .ok answer :=
  ⟨fun ⟨n, hn⟩ => ⟨n, hn n (Nat.le_refl n)⟩, fun ⟨_, h⟩ => ending_of_run h⟩

/-- The plans of an executor decide, and the parsers of its possibly empty terminals try those of
their variants. -/
structure Decisive (g : Grammar) (e : Executor σ) : Prop where
  wellFormed : g.WellFormed
  table : e.table = Table.ofGrammar g
  kind : ∀ rule ∈ g.rules, ∃ kind, g.kind rule.lhs = .ok kind
  ending : g.registry.nonEmptyOf .endOfInput = none
  variant : ∀ {t u}, g.registry.nonEmptyOf t = some u → e.Told u ∧
    ∃ parser, e.terminals.lookup u = some parser ∧
      e.terminals.lookup t = some (Parser.optional parser)
  decided : ∀ {i s t action}, (Automaton.ofGrammar g)[i]? = some s → Maps s.actions t action →
    ((Automaton.ofGrammar g).planOf g i).hasError = false
  apart : ∀ {i s}, (Automaton.ofGrammar g)[i]? = some s →
    e.Apart ((Automaton.ofGrammar g).planOf g i)

theorem spelt_nil {r : Registry} {spelling : List Handle} :
    r.Spelt [] spelling ↔ spelling = [] := by
  constructor
  · rintro ⟨⟩
    rfl
  · rintro rfl
    exact .nil

/-- The first terminal of a row takes the first token, or is possibly empty. -/
theorem spelt_cons {r : Registry} {t : Handle} {word : List Handle} {tokens : List (Ahead σ)} :
    r.Spelt (t :: word) (tokens.map (·.terminal)) ↔
      (∃ token others, tokens = token :: others ∧ token.terminal = r.tokenOf t ∧
        r.Spelt word (others.map (·.terminal))) ∨
      (r.nonEmptyOf t).isSome ∧ r.Spelt word (tokens.map (·.terminal)) := by
  constructor
  · intro h
    generalize hspelling : tokens.map (·.terminal) = spelling at h
    cases h with
    | token h =>
      obtain ⟨token, others, rfl, htoken, rfl⟩ := List.map_eq_cons_iff.1 hspelling
      exact .inl ⟨token, others, rfl, htoken, h⟩
    | empty ht h => exact .inr ⟨ht, h⟩
  · rintro (⟨token, others, rfl, htoken, h⟩ | ⟨ht, h⟩)
    · rw [List.map_cons, htoken]
      exact .token h
    · exact .empty ht h

namespace Decisive

variable {i : Nat} {states : List Nat} {s : State} {c : Cursor σ} {nodes : List Node}
  {buffer tokens : List (Ahead σ)}

theorem grammar_eq (h : Decisive g e) : e.table.grammar = g := by
  rw [h.table]
  rfl

theorem canonical (h : Decisive g e) : (Automaton.ofGrammar g).Canonical g :=
  Automaton.canonical h.wellFormed

theorem nonEmptyOf_variant (h : Decisive g e) {t u : Handle}
    (hu : g.registry.nonEmptyOf t = some u) : g.registry.nonEmptyOf u = none := by
  have htold := (h.variant hu).1.1
  rwa [h.grammar_eq] at htold

/-- A step makes the move that the plan of its state comes to. -/
theorem step (h : Decisive g e) (origin : Position) (nodes : List Node) (states : List Nat)
    (hs : (Automaton.ofGrammar g)[i]? = some s) (hlaid : e.Laid w c tokens)
    (hbuffer : buffer <+: tokens) (move : Move)
    (hcomes : ((Automaton.ofGrammar g).planOf g i).Comes (tokens.map (·.terminal)) move.leaf) :
    ∃ buffer', buffer' <+: tokens ∧
      (e.step w origin (.at c (i :: states) nodes buffer)).result =
        (e.perform w origin (.at c (i :: states) nodes buffer') i move).result := by
  obtain ⟨buffer', hbuffer', hwalk⟩ := walk_of_comes
    (m := .at c (i :: states) nodes buffer) hlaid hcomes rfl (h.apart hs) (List.nil_append _).symm
    rfl hbuffer (Nat.zero_le _)
  refine ⟨buffer', hbuffer', step_of_walk rfl ?_ hwalk⟩
  rw [h.table]
  exact Table.plan?_ofGrammar.2 ⟨s, hs, rfl⟩

/-- The parser of a terminal takes the token that is there for it. -/
theorem exists_bound (h : Decisive g e) {t : Handle} {token : Ahead σ}
    (htoken : token.terminal = g.registry.tokenOf t) (hsole : e.Sole w c token) :
    ∃ parser, e.terminals.lookup t = some parser ∧
      (parser c.user w c.position).result = .ok (some token.parsed) := by
  cases hu : g.registry.nonEmptyOf t with
  | none =>
    rw [Registry.tokenOf_of_none hu] at htoken
    obtain ⟨parser, hparser, hresult⟩ := hsole.exists_bound hsole.told
    rw [if_pos rfl] at hresult
    exact ⟨parser, htoken ▸ hparser, hresult⟩
  | some u =>
    rw [Registry.tokenOf_of_some hu] at htoken
    obtain ⟨htold, parser, hparser, hoptional⟩ := h.variant hu
    have hresult := hsole.result htold hparser
    rw [if_pos htoken.symm] at hresult
    exact ⟨_, hoptional, Parser.optional_of_some hresult⟩

/-- A terminal takes the next token, from the buffer or from the window. -/
theorem shift_token (h : Decisive g e) {t : Handle} {token : Ahead σ}
    (htoken : token.terminal = g.registry.tokenOf t)
    (hlaid : e.Laid w c (token :: tokens)) (hbuffer : buffer <+: token :: tokens) {munch : Nat}
    (hmunch : munch ≠ 0) (j : Nat) :
    ∃ others, others <+: tokens ∧
      (e.shift w origin (.at c (i :: states) nodes buffer) i j t munch).result =
        .ok (.running (.at token.parsed.cursor (j :: i :: states) (token.parsed.node :: nodes)
          others)) := by
  cases buffer with
  | nil =>
    obtain ⟨parser, hparser, hresult⟩ := h.exists_bound htoken hlaid.1
    have hsupply : e.supply t munch ([] : List (Ahead σ)) = .unread := by simp [supply, hmunch]
    refine ⟨[], List.nil_prefix, ?_⟩
    rw [Executor.shift, Machine.at, hsupply]
    refine Traced.bind_eq_ok.2 ⟨parser, parserOf_eq_ok.2 hparser, ?_⟩
    exact Traced.bind_eq_ok.2 ⟨_, hresult, rfl⟩
  | cons b others =>
    obtain ⟨rfl, hothers⟩ := List.cons_prefix_cons.1 hbuffer
    have hown : b.terminal = t ∨ e.table.grammar.registry.nonEmptyOf t = some b.terminal := by
      rw [h.grammar_eq, htoken]
      cases hu : g.registry.nonEmptyOf t with
      | none => exact .inl (Registry.tokenOf_of_none hu)
      | some u => exact .inr (congrArg some (Registry.tokenOf_of_some hu).symm)
    have hsupply : e.supply t munch (b :: others) = .buffered b.parsed others := by
      simp [supply, hmunch, hown]
    refine ⟨others, hothers, ?_⟩
    rw [Executor.shift, Machine.at, hsupply]
    rfl

/-- A possibly empty terminal takes nothing, where its variant is not there. -/
theorem shift_nothing (h : Decisive g e) {t u : Handle} (hu : g.registry.nonEmptyOf t = some u)
    {token : Ahead σ} (hne : token.terminal ≠ u)
    (hlaid : e.Laid w c (token :: tokens)) (hbuffer : buffer <+: token :: tokens) (munch j : Nat) :
    (e.shift w origin (.at c (i :: states) nodes buffer) i j t munch).result =
      .ok (.running (.at c (j :: i :: states)
        ((Parser.nothing c.user w c.position).node :: nodes) buffer)) := by
  have htu : token.terminal ≠ t := by
    rintro rfl
    have htold := hlaid.1.told.1
    rw [h.grammar_eq, hu] at htold
    cases htold
  have hu' : e.table.grammar.registry.nonEmptyOf t = some u := by rw [h.grammar_eq]; exact hu
  by_cases hmunch : munch = 0
  · have hsupply : e.supply t munch buffer = .empty := if_pos hmunch
    rw [Executor.shift, Machine.at, hsupply]
    rfl
  cases buffer with
  | nil =>
    obtain ⟨htold, parser, hparser, hoptional⟩ := h.variant hu
    have hresult := hlaid.1.result htold hparser
    rw [if_neg hne.symm] at hresult
    have hsupply : e.supply t munch ([] : List (Ahead σ)) = .unread := by simp [supply, hmunch]
    rw [Executor.shift, Machine.at, hsupply]
    refine Traced.bind_eq_ok.2 ⟨_, parserOf_eq_ok.2 hoptional, ?_⟩
    exact Traced.bind_eq_ok.2 ⟨_, Parser.optional_of_none hresult, rfl⟩
  | cons b others =>
    obtain ⟨rfl, -⟩ := List.cons_prefix_cons.1 hbuffer
    have hsupply : e.supply t munch (b :: others) = .empty := by
      simp [supply, hmunch, hu', htu, hne.symm]
    rw [Executor.shift, Machine.at, hsupply]
    rfl

/-- A reduction cuts the stacks back and goes on from the state below. -/
theorem reduce (h : Decisive g e) {id j k : Nat} {below : List Nat} {symbols : List Handle}
    {rule : Rule} {s' : State} (hpath : (Automaton.ofGrammar g).Path (i :: states) symbols)
    (hnodes : nodes.length = symbols.length) (hr : g.rules[id]? = some rule)
    (hdrop : (i :: states).drop rule.rhs.length = k :: below)
    (hs' : (Automaton.ofGrammar g)[k]? = some s') (he : (rule.lhs, j) ∈ s'.edges) :
    ∃ node, (e.reduce w (.at c (i :: states) nodes buffer) i id).result =
      .ok (.running (.at c (j :: k :: below) (node :: nodes.drop rule.rhs.length) buffer)) := by
  have hrule := List.mem_of_getElem? hr
  obtain ⟨kind, hkind⟩ := h.kind rule hrule
  refine ⟨_, reduce_eq_ok.2 ⟨rule, k, below, j, kind, ?_, ?_, hdrop, ?_, ?_, rfl⟩⟩
  · rw [h.grammar_eq]
    exact hr
  · have hlen := congrArg List.length hdrop
    rw [List.length_drop, hpath.length_eq, List.length_cons] at hlen
    show rule.rhs.length ≤ nodes.length
    omega
  · rw [h.table]
    exact (Table.goto?_ofGrammar h.wellFormed (h.wellFormed.lhs_nonTerminal rule hrule)).2
      ⟨s', hs', he⟩
  · rw [h.grammar_eq]
    exact hkind

/-- At the end of input, with one node, the run is over. -/
theorem accept (h : Decisive g e) {token : Ahead σ} (htoken : token.terminal = .endOfInput)
    (hlaid : e.Laid w c [token]) (hbuffer : buffer <+: [token]) (root : Node) :
    (e.accept w origin (.at c states [root] buffer) i).result =
      .ok (.finished (some ⟨token.parsed.state, root, token.parsed.stop⟩)) := by
  rw [Machine.at]
  unfold Executor.accept
  cases buffer with
  | nil =>
    rw [← Registry.tokenOf_of_none h.ending] at htoken
    obtain ⟨parser, hparser, hresult⟩ := h.exists_bound htoken hlaid.1
    refine Traced.bind_eq_ok.2 ⟨parser, parserOf_eq_ok.2 hparser, ?_⟩
    exact Traced.bind_eq_ok.2 ⟨_, hresult, rfl⟩
  | cons b others =>
    obtain ⟨rfl, -⟩ := List.cons_prefix_cons.1 hbuffer
    refine Traced.bind_eq_ok.2 ⟨some b.parsed, ?_, rfl⟩
    rw [if_pos htoken]
    rfl

/-! ### Steps along a run -/

section

variable {j id : Nat} {t u : Handle} {token : Ahead σ} (hs : (Automaton.ofGrammar g)[i]? = some s)

include hs

/-- A terminal that takes the next token is shifted, if its target acts on what comes next. -/
theorem step_token (h : Decisive g e) (he : (t, j) ∈ s.edges) (ht : t.isTerminal)
    (hu : u ∈ (Automaton.ofGrammar g).terminalsAt j)
    (htoken : token.terminal = g.registry.tokenOf t)
    (hbegins : g.registry.Begins [u] (tokens.map (·.terminal)))
    (hlaid : e.Laid w c (token :: tokens)) (hbuffer : buffer <+: token :: tokens) :
    ∃ others, others <+: tokens ∧ (e.step w origin (.at c (i :: states) nodes buffer)).result =
      .ok (.running (.at token.parsed.cursor (j :: i :: states) (token.parsed.node :: nodes)
        others)) := by
  have hsuits : Plan.Suits g.registry True ⟨[t, u], .shift j, t, 1, true⟩
      ((token :: tokens).map (·.terminal)) := by
    rw [List.map_cons, htoken]
    exact .own rfl hbegins Nat.one_ne_zero
  have hplan := h.decided hs (h.canonical.maps_shift (List.mem_of_getElem? hs) he ht)
  obtain ⟨munch, hcomes, hmunch⟩ :=
    comes_shift h.nonEmptyOf_variant hs hplan h.canonical he ht hu hsuits
  obtain ⟨buffer', hbuffer', hstep⟩ :=
    h.step origin nodes states hs hlaid hbuffer (.shift j t munch) hcomes
  obtain ⟨others, hothers, hshift⟩ := h.shift_token htoken hlaid hbuffer' (hmunch trivial) j
  exact ⟨others, hothers, hstep.trans hshift⟩

/-- A possibly empty terminal is shifted over nothing, where the next token is not of its variant
and its target acts on what comes next. -/
theorem step_nothing (h : Decisive g e) (he : (t, j) ∈ s.edges) (ht : t.isTerminal)
    (hu : u ∈ (Automaton.ofGrammar g).terminalsAt j) {v : Handle}
    (hv : g.registry.nonEmptyOf t = some v) (hne : token.terminal ≠ v)
    (hbegins : g.registry.Begins [u] ((token :: tokens).map (·.terminal)))
    (hlaid : e.Laid w c (token :: tokens)) (hbuffer : buffer <+: token :: tokens) :
    ∃ buffer', buffer' <+: token :: tokens ∧
      (e.step w origin (.at c (i :: states) nodes buffer)).result =
        .ok (.running (.at c (j :: i :: states)
          ((Parser.nothing c.user w c.position).node :: nodes) buffer')) := by
  have hempty : (g.registry.nonEmptyOf t).isSome := Option.isSome_of_eq_some hv
  have hsuits : Plan.Suits g.registry False ⟨[t, u], .shift j, t, 1, true⟩
      ((token :: tokens).map (·.terminal)) :=
    .past (Registry.begins_cons.2 (.inr ⟨hempty, hbegins⟩)) False.elim
  have hplan := h.decided hs (h.canonical.maps_shift (List.mem_of_getElem? hs) he ht)
  obtain ⟨munch, hcomes, -⟩ :=
    comes_shift h.nonEmptyOf_variant hs hplan h.canonical he ht hu hsuits
  obtain ⟨buffer', hbuffer', hstep⟩ :=
    h.step origin nodes states hs hlaid hbuffer (.shift j t munch) hcomes
  exact ⟨buffer', hbuffer', hstep.trans (h.shift_nothing hv hne hlaid hbuffer' munch j)⟩

/-- A rule is reduced before the rest of a run. -/
theorem step_reduce (h : Decisive g e) {k : Nat} {below : List Nat} {symbols word : List Handle}
    {rule : Rule} {s' : State} (hpath : (Automaton.ofGrammar g).Path (i :: states) symbols)
    (hnodes : nodes.length = symbols.length) (hmaps : Maps s.actions t (.reduce id))
    (hr : g.rules[id]? = some rule) (hdrop : (i :: states).drop rule.rhs.length = k :: below)
    (hs' : (Automaton.ofGrammar g)[k]? = some s') (he : (rule.lhs, j) ∈ s'.edges)
    (haccepts : Accepts g (Automaton.ofGrammar g) (j :: k :: below) (t :: word))
    (hspelt : g.registry.Spelt (t :: word) (tokens.map (·.terminal))) (hlaid : e.Laid w c tokens)
    (hbuffer : buffer <+: tokens) :
    ∃ node buffer', buffer' <+: tokens ∧
      (e.step w origin (.at c (i :: states) nodes buffer)).result =
        .ok (.running (.at c (j :: k :: below) (node :: nodes.drop rule.rhs.length) buffer')) := by
  -- Before a possibly empty terminal, the plan looks at the one after it too.
  obtain ⟨ahead, hahead, hbegins⟩ : ∃ ahead ∈ lookaheads t
      (if (g.registry.nonEmptyOf t).isSome then (Automaton.ofGrammar g).followers g i id t else []),
      g.registry.Begins ahead (tokens.map (·.terminal)) := by
    cases hu : g.registry.nonEmptyOf t with
    | none => exact ⟨[t], List.mem_singleton_self _, hspelt.begins 1⟩
    | some v =>
      cases word with
      | nil =>
        rw [haccepts.eq_end h.canonical rfl, h.ending] at hu
        cases hu
      | cons u rest =>
        refine ⟨[t, u], mem_lookaheads ?_, hspelt.begins 2⟩
        exact haccepts.mem_followers h.canonical hpath hs hmaps hr hdrop hs' he
  have hcomes := comes_reduce h.nonEmptyOf_variant hs (h.decided hs hmaps) hmaps hahead hbegins
  obtain ⟨buffer', hbuffer', hstep⟩ :=
    h.step origin nodes states hs hlaid hbuffer (.reduce id) hcomes
  obtain ⟨node, hreduce⟩ := h.reduce hpath hnodes hr hdrop hs' he
  exact ⟨node, buffer', hbuffer', hstep.trans hreduce⟩

/-- Where the automaton accepts, the run is over. -/
theorem step_accept (h : Decisive g e) (hmaps : Maps s.actions .endOfInput .accept)
    (htoken : token.terminal = .endOfInput) (hlaid : e.Laid w c [token])
    (hbuffer : buffer <+: [token]) (root : Node) :
    (e.step w origin (.at c (i :: states) [root] buffer)).result =
      .ok (.finished (some ⟨token.parsed.state, root, token.parsed.stop⟩)) := by
  have hbegins : g.registry.Begins [.endOfInput] ([token].map (·.terminal)) := by
    rw [List.map_singleton, htoken]
    exact Registry.begins_cons.2
      (.inl ⟨[], by rw [Registry.tokenOf_of_none h.ending], Registry.begins_nil⟩)
  have hcomes := comes_accept h.nonEmptyOf_variant hs (h.decided hs hmaps) hmaps hbegins
  obtain ⟨buffer', hbuffer', hstep⟩ := h.step origin [root] states hs hlaid hbuffer .accept hcomes
  exact hstep.trans (h.accept htoken hlaid hbuffer' root)

end

/-- The machine follows a run of the automaton to its end, over tokens that the terminals of the run
may stand for. -/
theorem exists_ending (h : Decisive g e) {word : List Handle}
    (haccepts : Accepts g (Automaton.ofGrammar g) states word) {symbols : List Handle}
    (hpath : (Automaton.ofGrammar g).Path states symbols) (hnodes : nodes.length = symbols.length)
    (hspelt : g.registry.Spelt word (tokens.map (·.terminal))) (hsep : g.registry.Separate word)
    (hlaid : e.Laid w c tokens) (hbuffer : buffer <+: tokens) :
    ∃ parsed, e.Ending w origin (.at c states nodes buffer) (some parsed) := by
  -- A terminal that is never empty takes the first token.
  have hfirst : ∀ {t word tokens}, g.registry.nonEmptyOf t = none →
      g.registry.Spelt (t :: word) (tokens.map (·.terminal)) →
      ∃ (token : Ahead σ) (others : List (Ahead σ)), tokens = token :: others ∧
        token.terminal = t ∧ g.registry.Spelt word (others.map (·.terminal)) := by
    intro t word tokens hnone hspelt
    rcases spelt_cons.1 hspelt with hspelt | ⟨hempty, -⟩
    · rwa [Registry.tokenOf_of_none hnone] at hspelt
    · rw [hnone] at hempty
      cases hempty
  induction haccepts generalizing symbols c nodes buffer tokens with
  | @accept i k s hs hmaps =>
    obtain ⟨token, others, rfl, htoken, hspelt⟩ := hfirst h.ending hspelt
    obtain rfl : others = [] := List.map_eq_nil_iff.1 (spelt_nil.1 hspelt)
    have hlen := hpath.length_eq
    rw [← hnodes] at hlen
    obtain ⟨root, rfl⟩ := List.length_eq_one_iff.1 (Nat.succ.inj hlen).symm
    exact ⟨_, .of_finished (h.step_accept hs hmaps htoken hlaid hbuffer root)⟩
  | @shift i j states s t word hs he ht haccepts ih =>
    obtain ⟨_, _, target, u, rest, _, heq, htarget, rfl, hacts⟩ :=
      haccepts.exists_action h.canonical
    cases heq
    have htmem := List.mem_of_getElem? htarget
    have hu : u ∈ (Automaton.ofGrammar g).terminalsAt j :=
      mem_terminalsAt.2 ⟨target, htarget, (h.canonical.mem_state_terminals htmem).2 ⟨_, hacts⟩⟩
    obtain ⟨hnext, hsep⟩ := List.isChain_cons_cons.1 hsep
    have hlen : ∀ node, (node :: nodes).length = (t :: symbols).length := fun _ =>
      congrArg (· + 1) hnodes
    rcases spelt_cons.1 hspelt with ⟨token, others, rfl, htoken, hspelt⟩ | ⟨hempty, hspelt⟩
    · obtain ⟨others', hothers, hstep⟩ :=
        h.step_token hs he ht hu htoken (hspelt.begins 1) hlaid hbuffer
      obtain ⟨parsed, hending⟩ :=
        ih (hpath.step hs he) (hlen token.parsed.node) hspelt hsep hlaid.2 hothers
      exact ⟨parsed, hending.of_running hstep⟩
    · -- What comes next is a token of its own terminal, not of the variant.
      obtain ⟨hnone, hne⟩ := hnext hempty
      obtain ⟨v, hv⟩ := Option.isSome_iff_exists.1 hempty
      rw [Registry.tokenOf_of_some hv] at hne
      obtain ⟨token, others, rfl, rfl, -⟩ := hfirst hnone hspelt
      obtain ⟨buffer', hbuffer', hstep⟩ :=
        h.step_nothing hs he ht hu hv hne (hspelt.begins 1) hlaid hbuffer
      obtain ⟨parsed, hending⟩ := ih (hpath.step hs he) (hlen _) hspelt hsep hlaid hbuffer'
      exact ⟨parsed, hending.of_running hstep⟩
  | @reduce i j k id states below s s' rule t word hs hmaps hr hdrop hs' he haccepts ih =>
    obtain ⟨node, buffer', hbuffer', hstep⟩ := h.step_reduce hs hpath hnodes hmaps hr hdrop hs' he
      haccepts hspelt hlaid hbuffer
    have hpath' := hpath.reduce h.canonical hs hmaps hr hdrop hs' he
    have hlen : (node :: nodes.drop rule.rhs.length).length =
        (rule.lhs :: symbols.drop rule.rhs.length).length := by
      simp [hnodes]
    obtain ⟨parsed, hending⟩ := ih hpath' hlen hspelt hsep hlaid hbuffer'
    exact ⟨parsed, hending.of_running hstep⟩

/-- **Words of the language** are parsed where tokens that they may stand for are there, one after
the other, and then the end of input. -/
theorem returns (h : Decisive g e) (hfresh : g.Fresh) {word : List Handle}
    (hterminals : ∀ t ∈ word, t.isTerminal) (hword : g.Derives [g.start] word)
    (hsep : g.registry.Separate (word ++ [.endOfInput])) {ending : Parsed σ}
    (hspelt : g.registry.Spelt word (tokens.map (·.terminal)))
    (hlaid : e.Laid w c (tokens ++ [⟨.endOfInput, ending⟩])) :
    ∃ parsed, e.Returns c.user w c.position (some parsed) := by
  have hspelt' : g.registry.Spelt (word ++ [.endOfInput])
      ((tokens ++ [(⟨.endOfInput, ending⟩ : Ahead σ)]).map (·.terminal)) := by
    rw [List.map_append]
    refine hspelt.append ?_
    have hend := Registry.Spelt.token (t := .endOfInput) (.nil (r := g.registry))
    rwa [Registry.tokenOf_of_none h.ending] at hend
  exact h.exists_ending (accepts_of_derives h.wellFormed h.canonical hfresh hterminals hword)
    .start rfl hspelt' hsep hlaid List.nil_prefix

end Decisive

end Executor

end Mixfix
