import Mixfix.Proofs.Executor.Completeness
import Mixfix.Proofs.Executor.Faults

/-!
# The stacks of the executor

In every step of a run, whatever the parsers of the terminals do, the states on the stack are a path
of the automaton and there is one node for each symbol of the path.  So a reduction always finds its
right-hand side on the stack, and a transition in the state below.

* `Executor.Stacked`: the invariant.
* `Executor.Stacked.reduces`: what a reduction finds.
* `Executor.Stacked.step`: a step keeps the stacks in order.
* `Executor.stack_discipline`: so does a run, and the faults of its stacks and of its table are
  never its own.
-/

namespace Mixfix

/-- The faults of a machine whose stacks do not fit its table. -/
def Fault.isStructural : Fault → Bool
  | shortStack _ | emptyStack | missingGoto _ _ | missingRule | missingState => true
  | _ => false

namespace Executor

variable {σ : Type} {g : Grammar} {e : Executor σ} {w : Window} {origin : Position}
  {m m' : Machine σ}

/-! ### Steps that go on -/

theorem giveUp_ne_running : (e.giveUp w origin m).result ≠ .ok (.running m') := by
  rw [giveUp]
  intro h
  split at h
  · cases h
  · obtain ⟨_, -, h⟩ := Traced.bind_eq_ok.1 h
    cases h

/-- A shift that goes on has put a token on the stacks. -/
theorem shift_running {current target munch : Nat} {t : Handle}
    (h : (e.shift w origin m current target t munch).result = .ok (.running m')) :
    ∃ parsed buffer, m' = push m parsed buffer target := by
  rw [shift] at h
  split at h
  · exact absurd h giveUp_ne_running
  · obtain ⟨_, -, h⟩ := Traced.bind_eq_ok.1 h
    cases h
    exact ⟨_, _, rfl⟩
  · obtain ⟨_, -, h⟩ := Traced.bind_eq_ok.1 h
    cases h
    exact ⟨_, _, rfl⟩
  · obtain ⟨parser, -, h⟩ := Traced.bind_eq_ok.1 h
    obtain ⟨answer, -, h⟩ := Traced.bind_eq_ok.1 h
    cases answer with
    | none => exact absurd h giveUp_ne_running
    | some parsed =>
      obtain ⟨_, -, h⟩ := Traced.bind_eq_ok.1 h
      cases h
      exact ⟨_, _, rfl⟩

theorem accept_ne_running {current : Nat} :
    (e.accept w origin m current).result ≠ .ok (.running m') := by
  intro h
  unfold accept at h
  extract_lets conclude at h
  have hconclude : ∀ answer, (conclude answer).result ≠ .ok (.running m') := by
    intro answer h
    cases answer with
    | none => exact absurd h giveUp_ne_running
    | some ending =>
      simp only [conclude] at h
      split at h
      · obtain ⟨_, -, h⟩ := Traced.bind_eq_ok.1 h
        cases h
      · cases h
  split at h
  · obtain ⟨answer, -, h⟩ := Traced.bind_eq_ok.1 h
    exact hconclude answer h
  · obtain ⟨_, -, h⟩ := Traced.bind_eq_ok.1 h
    obtain ⟨answer, -, h⟩ := Traced.bind_eq_ok.1 h
    exact hconclude answer h

/-- A step that goes on has walked the plan of its state down to a move. -/
theorem step_running (h : (e.step w origin m).result = .ok (.running m')) :
    ∃ i states plan move buffer, m.states = i :: states ∧ e.table.plan? i = some plan ∧
      (e.walk w m plan 0 m.buffer).result = .ok (some (move, buffer)) ∧
      (e.perform w origin { m with buffer } i move).result = .ok (.running m') := by
  unfold step at h
  split at h
  · cases h
  · next i states hstates =>
    split at h
    · cases h
    · next plan hplan =>
      obtain ⟨answer, hwalk, h⟩ := Traced.bind_eq_ok.1 h
      cases answer with
      | none => exact absurd h giveUp_ne_running
      | some answer =>
        obtain ⟨move, buffer⟩ := answer
        refine ⟨i, states, plan, move, buffer, hstates, hplan, hwalk, ?_⟩
        cases move <;> exact h

/-! ### The invariant -/

/-- The faults that a run may stop with while its stacks are in order. -/
inductive Ends (e : Executor σ) (w : Window) : Fault → Prop where
  | raised {f : Fault} : e.Raises w f → Ends e w f
  | unbound {f : Fault} {i : Nat} {plan : Plan} {t : Handle} : e.table.plan? i = some plan →
      plan.Asks t ∨ t = .endOfInput → e.parserOf t = .error f → Ends e w f
  | malformed : Ends e w .malformedStack
  | unnamed (h : Handle) : Ends e w (.unknownHandle h)
  | exhausted : Ends e w .exhausted

/-- A fault of the stacks or of the table comes from the parser of a terminal. -/
theorem Ends.raises {f : Fault} (h : e.Ends w f) (hf : f.isStructural) : e.Raises w f := by
  cases h with
  | raised h => exact h
  | unbound _ _ h => rcases (parserOf_eq_error h).2 with rfl | ⟨name, rfl⟩ <;> cases hf
  | malformed => cases hf
  | unnamed h => cases hf
  | exhausted => cases hf

/-- The states are a path over the symbols, and there is a node for each of them. -/
structure Stacked (g : Grammar) (m : Machine σ) (symbols : List Handle) : Prop where
  path : (Automaton.ofGrammar g).Path m.states symbols
  nodes : m.nodes.length = symbols.length

theorem stacked_start (s : σ) (p : Position) : Stacked g (start s p) [] := ⟨.start, rfl⟩

/-- A rule whose right-hand side ends the path, with a transition over its nonterminal from the
state below. -/
structure Reducible (g : Grammar) (t : Table) (m : Machine σ) (symbols : List Handle) (id : Nat)
    (rule : Rule) (below target : Nat) : Prop where
  found : g.rules[id]? = some rule
  le : rule.rhs.length ≤ symbols.length
  rhs : (symbols.take rule.rhs.length).reverse = rule.rhs
  cut : (m.states.drop rule.rhs.length).head? = some below
  goto : t.goto? below rule.lhs = some target

namespace Stacked

variable {symbols : List Handle} {i : Nat} {plan : Plan}

theorem states_length (h : Stacked g m symbols) : m.states.length = m.nodes.length + 1 := by
  rw [h.nodes, h.path.length_eq]

theorem lt_rows (hg : g.WellFormed) (ht : e.table = Table.ofGrammar g) (h : Stacked g m symbols)
    (hi : i ∈ m.states) : i < e.table.rows.length := by
  obtain ⟨s, hs⟩ := h.path.exists_state (Automaton.canonical hg) hi
  by_contra hlt
  have hnone := List.getElem?_eq_none (Nat.le_of_not_lt hlt)
  rw [ht, Table.getElem?_rows, hs] at hnone
  cases hnone

/-- A reduction that a plan comes to finds its right-hand side and a transition. -/
theorem reduces (hg : g.WellFormed) (ht : e.table = Table.ofGrammar g) (h : Stacked g m symbols)
    (hi : m.states.head? = some i) (hplan : e.table.plan? i = some plan) {id : Nat}
    {buffer : List (Ahead σ)}
    (hwalk : (e.walk w m plan 0 m.buffer).result = .ok (some (.reduce id, buffer))) :
    ∃ rule below target, Reducible g e.table m symbols id rule below target := by
  have hc := Automaton.canonical hg
  rw [ht] at hplan
  obtain ⟨s, hs, rfl⟩ := Table.plan?_ofGrammar.1 hplan
  obtain ⟨h0, item, hitem, hcomplete, rfl⟩ :=
    Automaton.backed_of_mem_leaves hc hs (walk_result hwalk).1
  obtain ⟨rule, hr, -⟩ := (hc.proper (List.mem_of_getElem? hs)).dot_le item hitem
  have hrhs : g.rhs item.rule = rule.rhs := by rw [Grammar.rhs, hr]; rfl
  obtain ⟨hle, htake⟩ := h.path.rhs_of_complete hc hi hs hitem hcomplete
  rw [hrhs] at hle htake
  obtain ⟨k, below, t, j, hdrop, hk, -, hj⟩ := h.path.exists_goto hc hi hs hitem hcomplete h0 hr
  refine ⟨rule, k, j, hr, hle, htake, by rw [hdrop]; rfl, ?_⟩
  rw [ht]
  exact (Table.goto?_ofGrammar hg (hg.lhs_nonTerminal rule (List.mem_of_getElem? hr))).2 ⟨t, hk, hj⟩

/-- A reduction that a plan comes to stops only for a nonterminal without a kind. -/
theorem reduce_fault (hg : g.WellFormed) (ht : e.table = Table.ofGrammar g)
    (h : Stacked g m symbols) (hi : m.states.head? = some i) (hplan : e.table.plan? i = some plan)
    {id : Nat} {buffer : List (Ahead σ)}
    (hwalk : (e.walk w m plan 0 m.buffer).result = .ok (some (.reduce id, buffer))) {f : Fault}
    (hreduce : (e.reduce w { m with buffer } i id).result = .error f) :
    ∃ rule ∈ g.rules, g.kind rule.lhs = .error f := by
  have htg : e.table.grammar = g := by rw [ht]; rfl
  obtain ⟨rule, below, target, hr⟩ := h.reduces hg ht hi hplan hwalk
  rcases Executor.reduce_fault hreduce with hnone | ⟨rule', hrule, hcases⟩
  · rw [htg, hr.found] at hnone
    cases hnone
  · rw [htg] at hrule
    cases hr.found.symm.trans hrule
    have hnodes : rule.rhs.length ≤ m.nodes.length := h.nodes ▸ hr.le
    rcases hcases with hshort | hshort | ⟨below', rest, hdrop, hgoto⟩ | hkind
    · exact absurd hnodes (Nat.not_le.2 hshort)
    · have hlen := h.states_length
      have hshort' : m.states.length ≤ rule.rhs.length := hshort
      omega
    · have hdrop' : m.states.drop rule.rhs.length = below' :: rest := hdrop
      have hbelow := hr.cut
      rw [hdrop'] at hbelow
      cases hbelow
      rw [hr.goto] at hgoto
      cases hgoto
    · rw [htg] at hkind
      exact ⟨rule, List.mem_of_getElem? hr.found, hkind⟩

/-- A symbol with a transition goes on the stacks. -/
theorem push (h : Stacked g m symbols) {states : List Nat} (hi : m.states = i :: states)
    {s : State} (hs : (Automaton.ofGrammar g)[i]? = some s) {t : Handle} {target : Nat}
    (hedge : (t, target) ∈ s.edges) (parsed : Parsed σ) (buffer : List (Ahead σ)) :
    Stacked g (Executor.push m parsed buffer target) (t :: symbols) where
  path := by
    have hpath := h.path
    show (Automaton.ofGrammar g).Path (target :: m.states) (t :: symbols)
    rw [hi] at hpath ⊢
    exact .step hpath hs hedge
  nodes := congrArg (· + 1) h.nodes

/-- The symbols of a right-hand side become one. -/
theorem fold (hg : g.WellFormed) (ht : e.table = Table.ofGrammar g) (h : Stacked g m symbols)
    {id : Nat} {rule : Rule} {below target : Nat} {rest : List Nat}
    (hr : Reducible g e.table m symbols id rule below target)
    (hdrop : m.states.drop rule.rhs.length = below :: rest) (kind : Kind) :
    Stacked g (folded w m rule.rhs.length kind (target :: below :: rest))
      (rule.lhs :: symbols.drop rule.rhs.length) where
  path := by
    have hpath := h.path.drop hr.le
    have hgoto := hr.goto
    rw [hdrop] at hpath
    rw [ht] at hgoto
    obtain ⟨s, hs, hedge⟩ := (Table.goto?_ofGrammar hg
      (hg.lhs_nonTerminal rule (List.mem_of_getElem? hr.found))).1 hgoto
    exact .step hpath hs hedge
  nodes := by
    show (m.nodes.drop rule.rhs.length).length + 1 = (symbols.drop rule.rhs.length).length + 1
    rw [List.length_drop, List.length_drop, h.nodes]

/-- A reduction that goes on has folded the right-hand side of its rule. -/
theorem reduce_running (ht : e.table = Table.ofGrammar g) {buffer : List (Ahead σ)} {id : Nat}
    {rule : Rule} {below target : Nat} (hr : Reducible g e.table m symbols id rule below target)
    (h : (e.reduce w { m with buffer } i id).result = .ok (.running m')) :
    ∃ kind rest, m.states.drop rule.rhs.length = below :: rest ∧
      m' = folded w { m with buffer } rule.rhs.length kind (target :: below :: rest) := by
  obtain ⟨rule', below', rest, target', kind, hrule, -, hdrop, hgoto, -, heq⟩ := reduce_eq_ok.1 h
  have htg : e.table.grammar = g := by rw [ht]; rfl
  rw [htg] at hrule
  cases hr.found.symm.trans hrule
  have hdrop' : m.states.drop rule.rhs.length = below' :: rest := hdrop
  have hcut := hr.cut
  rw [hdrop'] at hcut
  cases hcut
  cases hr.goto.symm.trans hgoto
  cases heq
  exact ⟨kind, rest, hdrop', rfl⟩

/-- A step keeps the stacks in order. -/
theorem step (hg : g.WellFormed) (ht : e.table = Table.ofGrammar g) (h : Stacked g m symbols)
    (hstep : (e.step w origin m).result = .ok (.running m')) :
    ∃ symbols', Stacked g m' symbols' := by
  obtain ⟨i, states, plan, move, buffer, hi, hplan, hwalk, hmove⟩ := step_running hstep
  -- The reads of the walk change the buffer alone.
  have hread : Stacked g { m with buffer } symbols := ⟨h.path, h.nodes⟩
  cases move with
  | shift target t munch =>
    obtain ⟨parsed, buffer', rfl⟩ := shift_running hmove
    rw [ht] at hplan
    obtain ⟨s, hs, rfl⟩ := Table.plan?_ofGrammar.1 hplan
    obtain ⟨hedge, -, -⟩ :=
      Automaton.backed_of_mem_leaves (Automaton.canonical hg) hs (walk_result hwalk).1
    exact ⟨_, hread.push hi hs hedge parsed buffer'⟩
  | reduce id =>
    obtain ⟨rule, below, target, hr⟩ := h.reduces hg ht (by rw [hi]; rfl) hplan hwalk
    obtain ⟨kind, rest, hdrop, rfl⟩ := reduce_running ht hr hmove
    exact ⟨_, hread.fold hg ht ⟨hr.found, hr.le, hr.rhs, hr.cut, hr.goto⟩ hdrop kind⟩
  | accept => exact absurd hmove accept_ne_running

theorem steps (hg : g.WellFormed) (ht : e.table = Table.ofGrammar g) (h : Stacked g m symbols)
    (hsteps : e.Steps w origin m m') : ∃ symbols', Stacked g m' symbols' := by
  induction hsteps with
  | refl => exact ⟨symbols, h⟩
  | tail _ hstep ih =>
    obtain ⟨symbols', h'⟩ := ih
    exact h'.step hg ht hstep

/-- Where the stacks are in order, a step stops for no reason of the stacks or of the table. -/
theorem ends_of_step (hg : g.WellFormed) (ht : e.table = Table.ofGrammar g)
    (h : Stacked g m symbols) {f : Fault} (hstep : (e.step w origin m).result = .error f) :
    e.Ends w f := by
  rcases stops_of_step hstep with ⟨-, hplan, hasks, -, hfaults⟩ | - | hnil | ⟨hhead, hplan⟩ |
    ⟨hhead, hplan, hwalk, hreduce⟩
  · rcases hfaults.unbound_or_raises with hunbound | hraised
    · exact .unbound hplan hasks hunbound
    · exact .raised hraised
  · exact .malformed
  · have := h.states_length
    rw [hnil] at this
    cases this
  · obtain ⟨s, hs⟩ := h.path.exists_state (Automaton.canonical hg) (List.mem_of_mem_head? hhead)
    rw [ht, Table.plan?_ofGrammar.2 ⟨s, hs, rfl⟩] at hplan
    cases hplan
  · obtain ⟨rule, -, hkind⟩ := h.reduce_fault hg ht hhead hplan hwalk hreduce
    rw [Grammar.kind_eq_error hkind]
    exact .unnamed rule.lhs

theorem ends_of_run (hg : g.WellFormed) (ht : e.table = Table.ofGrammar g)
    (h : Stacked g m symbols) {f : Fault} {limit : Nat}
    (hrun : (e.run w origin limit m).result = .error f) : e.Ends w f := by
  induction limit generalizing m symbols with
  | zero =>
    cases hrun
    exact .exhausted
  | succ limit ih =>
    rw [Executor.run, Traced.bind_eq_error] at hrun
    rcases hrun with hstep | ⟨outcome, hstep, hrun⟩
    · exact h.ends_of_step hg ht hstep
    · cases outcome with
      | finished answer => cases hrun
      | running m' =>
        obtain ⟨symbols', h'⟩ := h.step hg ht hstep
        exact ih h' hrun

end Stacked

/-- **Stack discipline.** In every machine that a run comes to, the states are a path of the
automaton, one longer than the nodes, and have rows; and a reduction that the plan comes to finds
its right-hand side at the end of the path, and a transition over its nonterminal below.  So no run
stops for a stack that is too short or empty, or for a missing transition, row or rule, unless the
parser of a terminal stops so itself. -/
theorem stack_discipline {registry : Registry} {start : Handle} {rules : List Rule}
    {kinds : List (Handle × Kind)} (hg : Grammar.ofRules registry start rules kinds = .ok g)
    (ht : (Table.build g : Traced Fault Table).result = .ok e.table) (s : σ) (p : Position) :
    (∀ m, e.Steps w p (Executor.start s p) m →
      ∃ symbols, (Automaton.ofGrammar g).Path m.states symbols ∧
        m.states.length = m.nodes.length + 1 ∧ (∀ i ∈ m.states, i < e.table.rows.length) ∧
        ∀ {i plan id buffer}, m.states.head? = some i → e.table.plan? i = some plan →
          (e.walk w m plan 0 m.buffer).result = .ok (some (.reduce id, buffer)) →
          ∃ rule below target, Reducible g e.table m symbols id rule below target) ∧
      ∀ {limit f}, f.isStructural → (e.parser limit s w p).result = .error f → e.Raises w f := by
  have hwf := Grammar.WellFormed.of_ofRules hg
  have htable : e.table = Table.ofGrammar g := by
    rw [Table.build_result] at ht
    exact (Except.ok.inj ht).symm
  refine ⟨fun m hm => ?_, fun hf h => ((stacked_start s p).ends_of_run hwf htable h).raises hf⟩
  obtain ⟨symbols, h⟩ := (stacked_start s p).steps hwf htable hm
  exact ⟨symbols, h.path, h.states_length, fun i hi => h.lt_rows hwf htable hi,
    fun hi hplan hwalk => h.reduces hwf htable hi hplan hwalk⟩

/-- The machine after the tokens of `bab` are shifted, the first `b` after no `a`. -/
def listShifted : Machine Nat where
  user := 3
  position := ⟨0, 3⟩
  states := [3, 1, 3, 1, 0]
  nodes := [.token ⟨"b", ⟨⟨0, 2⟩, ⟨0, 3⟩⟩⟩, .token ⟨"a", ⟨⟨0, 1⟩, ⟨0, 2⟩⟩⟩,
    .token ⟨"b", ⟨⟨0, 0⟩, ⟨0, 1⟩⟩⟩, .empty .zero]
  buffer := []

set_option maxRecDepth 4000 in
theorem listShifted_steps : listExecutor.Steps listWindow .zero (start 0 .zero) listShifted := by
  let first : Machine Nat := ⟨0, .zero, [1, 0], [.empty .zero], []⟩
  let second : Machine Nat :=
    ⟨1, ⟨0, 1⟩, [3, 1, 0], [.token ⟨"b", ⟨⟨0, 0⟩, ⟨0, 1⟩⟩⟩, .empty .zero], []⟩
  let third : Machine Nat := ⟨2, ⟨0, 2⟩, [1, 3, 1, 0],
    [.token ⟨"a", ⟨⟨0, 1⟩, ⟨0, 2⟩⟩⟩, .token ⟨"b", ⟨⟨0, 0⟩, ⟨0, 1⟩⟩⟩, .empty .zero], []⟩
  have h₁ : (listExecutor.step listWindow .zero (start 0 .zero)).result = .ok (.running first) :=
    rfl
  have h₂ : (listExecutor.step listWindow .zero first).result = .ok (.running second) := rfl
  have h₃ : (listExecutor.step listWindow .zero second).result = .ok (.running third) := rfl
  have h₄ : (listExecutor.step listWindow .zero third).result = .ok (.running listShifted) := rfl
  exact .tail (.tail (.tail (.single h₁) h₂) h₃) h₄

set_option maxRecDepth 4000 in
theorem listParser_stacks :
    Grammar.ofRules listRegistry ⟨1⟩ listRules [] = .ok listGrammar ∧
      listExecutor.Steps listWindow .zero (start 0 .zero) listShifted ∧
      (∃ symbols rule below target,
        Reducible listGrammar listExecutor.table listShifted symbols 2 rule below target) ∧
      ∀ {limit f}, f.isStructural →
        (listExecutor.parser limit 0 listWindow .zero).result = .error f →
        listExecutor.Raises listWindow f := by
  obtain ⟨hstacks, hfaults⟩ :=
    stack_discipline (e := listExecutor) (w := listWindow) listGrammar_ofRules rfl 0 .zero
  obtain ⟨symbols, -, -, -, hreduces⟩ := hstacks listShifted listShifted_steps
  have hwalk : (listExecutor.walk listWindow listShifted
      ((Automaton.ofGrammar listGrammar).planOf listGrammar 3) 0 []).result =
        .ok (some (.reduce 2, [⟨.endOfInput, Parser.nothing 3 listWindow ⟨0, 3⟩⟩])) := rfl
  obtain ⟨rule, below, target, hr⟩ := hreduces rfl rfl hwalk
  exact ⟨listGrammar_ofRules, listShifted_steps, ⟨symbols, rule, below, target, hr⟩, hfaults⟩

end Executor

end Mixfix
