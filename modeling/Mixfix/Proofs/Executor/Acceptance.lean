import Mixfix.Proofs.Executor.Stacks
import Mixfix.Proofs.Grammar.Preservation

/-!
# Acceptance

The accepting move belongs to the complete augmented rule.  Where no other rule uses the augmented
nonterminal, that rule begins at the bottom of the stack and nowhere else, so there is one node to
accept, the tree of the start symbol.  A grammar whose own rules use a nonterminal of that name
comes to the accepting move with other nodes below, and stops there.

* `Executor.Accepting`: the machines that are about to accept.
* `Executor.accept_clean`: an accepting machine holds the tree of the start symbol alone.
* `Executor.accept_malformed`: not so where a rule uses the augmented nonterminal.
-/

namespace Mixfix

/-- A grammar that passed the checks: one of rules, or one of expressions. -/
def Grammar.Made (g : Grammar) : Prop :=
  (∃ registry start rules kinds, ofRules registry start rules kinds = .ok g) ∨
    ∃ source : ExprGrammar, source.lower.result = .ok g

theorem Grammar.Made.wellFormed {g : Grammar} (h : g.Made) : g.WellFormed := by
  rcases h with ⟨_, _, _, _, h⟩ | ⟨source, h⟩
  · exact .of_ofRules h
  · obtain ⟨_, _, _, _, _, -, -, -, h⟩ := ExprGrammar.lower_eq_ok h
    exact .of_ofRules h

namespace Executor

open Mixfix.Derivation

variable {σ : Type} {g : Grammar} {e : Executor σ} {w : Window} {origin : Position}
  {m m' : Machine σ}

/-- The plan of the machine's state comes to the accepting move. -/
def Accepting (e : Executor σ) (w : Window) (m : Machine σ) : Prop :=
  ∃ i plan buffer, m.states.head? = some i ∧ e.table.plan? i = some plan ∧
    (e.walk w m plan 0 m.buffer).result = .ok (some (.accept, buffer))

/-- The stack holds exactly one node, the result of a derivation tree of the start symbol over the
tokens taken since a place. -/
def Clean (g : Grammar) (e : Executor σ) (w : Window) (c : Cursor σ) (m : Machine σ) : Prop :=
  ∃ (d : Derivation σ) (root : Node), m.nodes = [root] ∧ d.Fits g g.start ∧
    e.Chain w c d.tokens m.cursor ∧ d.node g w c.position = .ok root

/-- Every step keeps a machine consistent, so any number of them do. -/
theorem Consistent.steps (hg : g.WellFormed) (ht : e.table = Table.ofGrammar g) {c : Cursor σ}
    {symbols : List Handle} {ds : List (Derivation σ)} (hc : Consistent g e w c m symbols ds)
    (h : e.Steps w origin m m') : ∃ symbols' ds', Consistent g e w c m' symbols' ds' := by
  induction h with
  | refl => exact ⟨symbols, ds, hc⟩
  | tail _ hstep ih =>
    obtain ⟨symbols', ds', hc'⟩ := ih
    exact hc'.step hg ht hstep

/-- A run that stops with a fault has used up its moves, or comes to a step that stops with it. -/
theorem exists_step_of_run {limit : Nat} {f : Fault}
    (h : (e.run w origin limit m).result = .error f) :
    f = .exhausted ∨ ∃ m', e.Steps w origin m m' ∧ (e.step w origin m').result = .error f := by
  induction limit generalizing m with
  | zero =>
    cases h
    exact .inl rfl
  | succ limit ih =>
    rw [run, Traced.bind_eq_error] at h
    rcases h with hstep | ⟨outcome, hstep, h⟩
    · exact .inr ⟨m, .refl, hstep⟩
    · cases outcome with
      | finished answer => cases h
      | running m₁ =>
        rcases ih h with hexhausted | ⟨m', hsteps, hstop⟩
        · exact .inl hexhausted
        · exact .inr ⟨m', hsteps.head hstep, hstop⟩

/-- The path to an accepting state is the start symbol. -/
theorem Accepting.symbols_eq (h : e.Accepting w m) (hg : g.WellFormed)
    (ht : e.table = Table.ofGrammar g) (hreserved : g.Reserved) {symbols : List Handle}
    (hpath : (Automaton.ofGrammar g).Path m.states symbols) : symbols = [g.start] := by
  have hc := Automaton.canonical hg
  obtain ⟨i, plan, buffer, hi, hplan, hwalk⟩ := h
  rw [ht] at hplan
  obtain ⟨s, hs, rfl⟩ := Table.plan?_ofGrammar.1 hplan
  obtain ⟨⟨id, dot, b⟩, hitem, hcomplete, rfl⟩ :=
    Automaton.backed_of_mem_leaves hc hs (walk_result hwalk).1
  obtain ⟨lhs, hr⟩ := hg.augmented
  have hrhs : g.rhs 0 = [g.start] := by rw [Grammar.rhs, hr]; rfl
  obtain ⟨k, below, t, hdrop, hk, -, hinitial⟩ := hpath.origin hc hi hs hitem
  obtain ⟨hle, htake⟩ := hpath.before_dot hc hi hs hitem
  -- The path before the augmented rule is empty, so its right-hand side is all of the path.
  have hnil : symbols.drop dot = [] :=
    (hpath.drop hle).eq_nil_of_augmented hg hc hreserved (by rw [hdrop]; rfl) hk hinitial
  have hall : symbols.take dot = symbols := List.take_of_length_le (List.drop_eq_nil_iff.1 hnil)
  have hdot : 1 ≤ dot := by
    rw [Item.isComplete, List.isEmpty_iff, Item.rest, hrhs, List.drop_eq_nil_iff] at hcomplete
    exact hcomplete
  rw [hall, hrhs, List.take_of_length_le hdot] at htake
  exact List.reverse_eq_iff.1 htake

theorem Consistent.clean (hg : g.WellFormed) (ht : e.table = Table.ofGrammar g)
    (hreserved : g.Reserved) {c : Cursor σ} {symbols : List Handle} {ds : List (Derivation σ)}
    (hc : Consistent g e w c m symbols ds) (h : e.Accepting w m) : Clean g e w c m := by
  obtain rfl := h.symbols_eq hg ht hreserved hc.path
  obtain ⟨d, rfl⟩ := List.length_eq_one_iff.1 hc.fits.length_eq
  obtain ⟨root, rest, hroot, hnode, hrest⟩ := nodes_cons_eq_ok.1 hc.nodes
  cases nodes_nil.symm.trans hrest
  have hchain := hc.chain
  rw [tokensAll_cons, tokensAll_nil, List.append_nil] at hchain
  exact ⟨d, root, List.reverse_eq_iff.1 hroot, (fitsAll_cons.1 hc.fits).1, hchain, hnode⟩

/-- A step stops for a malformed stack only where the machine is accepting, unless the parser of a
terminal does. -/
theorem Stacked.accepting_of_malformed (hg : g.WellFormed) (ht : e.table = Table.ofGrammar g)
    {symbols : List Handle} (h : Stacked g m symbols)
    (hstep : (e.step w origin m).result = .error .malformedStack) :
    e.Raises w .malformedStack ∨ e.Accepting w m ∧ ∀ root, m.nodes ≠ [root] := by
  generalize hf : Fault.malformedStack = f at hstep
  rcases stops_of_step hstep with ⟨-, -, -, -, hfaults⟩ | ⟨hhead, hplan, hwalk, hnodes⟩ | - | - |
    ⟨hhead, hplan, hwalk, hreduce⟩
  · subst hf
    refine .inl (hfaults.unbound_or_raises.resolve_left fun hunbound => ?_)
    rcases (parserOf_eq_error hunbound).2 with hf | ⟨name, hf⟩ <;> cases hf
  · exact .inr ⟨⟨_, _, _, hhead, hplan, hwalk⟩, hnodes⟩
  · cases hf
  · cases hf
  · subst hf
    obtain ⟨rule, -, hkind⟩ := h.reduce_fault hg ht hhead hplan hwalk hreduce
    cases Grammar.kind_eq_error hkind

/-- **Acceptance is clean.** Where no rule but the augmented one uses the augmented nonterminal, a
machine that comes to the accepting move holds exactly one node, the result of a derivation tree of
the start symbol over the tokens taken so far.  So no run stops for a malformed stack, unless the
parser of a terminal stops so itself. -/
theorem accept_clean (hg : g.Made) (ht : (Table.build g : Traced Fault Table).result = .ok e.table)
    (hreserved : g.Reserved) (s : σ) (p : Position) :
    (∀ m, e.Steps w p (start s p) m → e.Accepting w m → Clean g e w ⟨s, p⟩ m) ∧
      ∀ {limit}, (e.parser limit s w p).result = .error .malformedStack →
        e.Raises w .malformedStack := by
  have hwf := hg.wellFormed
  have htable : e.table = Table.ofGrammar g := by
    rw [Table.build_result] at ht
    exact (Except.ok.inj ht).symm
  have hclean : ∀ m, e.Steps w p (start s p) m → e.Accepting w m → Clean g e w ⟨s, p⟩ m := by
    intro m hsteps haccepting
    obtain ⟨symbols, ds, hc⟩ := (consistent_start s p).steps hwf htable hsteps
    exact hc.clean hwf htable hreserved haccepting
  refine ⟨hclean, fun h => ?_⟩
  rcases exists_step_of_run h with hf | ⟨m, hsteps, hstop⟩
  · cases hf
  · obtain ⟨symbols, hstacked⟩ := (stacked_start s p).steps hwf htable hsteps
    rcases hstacked.accepting_of_malformed hwf htable hstop with h | ⟨haccepting, hnodes⟩
    · exact h
    · obtain ⟨-, root, hroot, -⟩ := hclean m hsteps haccepting
      exact absurd hroot (hnodes root)

/-- The machine after the reductions of `bab`, about to accept. -/
def listReduced : Machine Nat :=
  ⟨3, ⟨0, 3⟩, [2, 0], [listParsed.node], [⟨.endOfInput, Parser.nothing 3 listWindow ⟨0, 3⟩⟩]⟩

set_option maxRecDepth 4000 in
theorem listReduced_steps : listExecutor.Steps listWindow .zero (start 0 .zero) listReduced := by
  let inner : Machine Nat := ⟨3, ⟨0, 3⟩, [4, 3, 1, 0],
    [.tree (.tagged "L") ⟨⟨0, 1⟩, ⟨0, 3⟩⟩
        [.token ⟨"a", ⟨⟨0, 1⟩, ⟨0, 2⟩⟩⟩, .token ⟨"b", ⟨⟨0, 2⟩, ⟨0, 3⟩⟩⟩],
      .token ⟨"b", ⟨⟨0, 0⟩, ⟨0, 1⟩⟩⟩, .empty .zero], listReduced.buffer⟩
  have h₁ : (listExecutor.step listWindow .zero listShifted).result = .ok (.running inner) := rfl
  have h₂ : (listExecutor.step listWindow .zero inner).result = .ok (.running listReduced) := rfl
  exact .tail (.tail listShifted_steps h₁) h₂

set_option maxRecDepth 4000 in
theorem listParser_clean :
    listGrammar.Made ∧ listGrammar.Reserved ∧
      listExecutor.Steps listWindow .zero (start 0 .zero) listReduced ∧
      listExecutor.Accepting listWindow listReduced ∧
      Clean listGrammar listExecutor listWindow ⟨0, .zero⟩ listReduced ∧
      ∀ {limit}, (listExecutor.parser limit 0 listWindow .zero).result = .error .malformedStack →
        listExecutor.Raises listWindow .malformedStack := by
  have hmade : listGrammar.Made :=
    .inl ⟨listRegistry, ⟨1⟩, listRules, [], listGrammar_ofRules⟩
  have hreserved : listGrammar.Reserved := by
    intro augmented haug
    cases haug
    decide
  have haccepting : listExecutor.Accepting listWindow listReduced := ⟨2, _, _, rfl, rfl, rfl⟩
  obtain ⟨hclean, hfaults⟩ :=
    accept_clean (e := listExecutor) (w := listWindow) hmade rfl hreserved 0 .zero
  exact ⟨hmade, hreserved, listReduced_steps, haccepting, hclean _ listReduced_steps haccepting,
    hfaults⟩

/-! ### A rule that uses the augmented nonterminal -/

/-- `S -> x Start'` and `S -> y`, as expressions. -/
def reentrant : ExprGrammar where
  start := "S"
  rules := [("S", .alt [.seq [.named "x", .nonTerminal augmentedStart], .named "y"])]

/-- The grammar of these rules: the augmented nonterminal is the one that they name. -/
def reentrantGrammar : Grammar where
  registry := .ofLists ["S", augmentedStart] [["x"], ["y"]] [] []
  rules := [⟨⟨2⟩, [⟨1⟩]⟩, ⟨⟨1⟩, [⟨-1⟩, ⟨2⟩]⟩, ⟨⟨1⟩, [⟨-2⟩]⟩]
  start := ⟨1⟩
  kinds := [(⟨2⟩, .transparent)]

def reentrantExecutor : Executor Nat where
  table := Table.ofGrammar reentrantGrammar
  terminals := [(⟨-2⟩, letter 'y'), (⟨-1⟩, letter 'x'), (.endOfInput, .endOfWindow)]
  config := {}

/-- The window on `xy`. -/
def reentrantWindow : Window := .ofSource (.ofText "xy")

/-- The machine after `xy`: the augmented rule is complete above the `x`. -/
def reentrantReduced : Machine Nat :=
  ⟨2, ⟨0, 2⟩, [3, 2, 0],
    [.tree (.tagged "S") ⟨⟨0, 1⟩, ⟨0, 2⟩⟩ [.token ⟨"y", ⟨⟨0, 1⟩, ⟨0, 2⟩⟩⟩],
      .token ⟨"x", ⟨⟨0, 0⟩, ⟨0, 1⟩⟩⟩],
    [⟨.endOfInput, Parser.nothing 2 reentrantWindow ⟨0, 2⟩⟩]⟩

set_option maxRecDepth 4000 in
theorem reentrantReduced_steps :
    reentrantExecutor.Steps reentrantWindow .zero (start 0 .zero) reentrantReduced := by
  let y : Parsed Nat := ⟨2, .token ⟨"y", ⟨⟨0, 1⟩, ⟨0, 2⟩⟩⟩, ⟨0, 2⟩⟩
  let first : Machine Nat := ⟨1, ⟨0, 1⟩, [2, 0], [.token ⟨"x", ⟨⟨0, 0⟩, ⟨0, 1⟩⟩⟩], [⟨⟨-2⟩, y⟩]⟩
  let second : Machine Nat := ⟨2, ⟨0, 2⟩, [1, 2, 0], [y.node, .token ⟨"x", ⟨⟨0, 0⟩, ⟨0, 1⟩⟩⟩],
    reentrantReduced.buffer⟩
  have h₁ : (reentrantExecutor.step reentrantWindow .zero (start 0 .zero)).result =
    .ok (.running first) := rfl
  have h₂ : (reentrantExecutor.step reentrantWindow .zero first).result =
    .ok (.running second) := rfl
  have h₃ : (reentrantExecutor.step reentrantWindow .zero second).result =
    .ok (.running reentrantReduced) := rfl
  exact .tail (.tail (.single h₁) h₂) h₃

set_option maxRecDepth 4000 in
/-- The rules pass every check and the parsers bind, but the run comes to the accepting move before
the end of input with two nodes, and stops there. -/
theorem accept_malformed :
    reentrant.lower.result = .ok reentrantGrammar ∧
      (Table.build reentrantGrammar : Traced Fault Table).result = .ok reentrantExecutor.table ∧
      bind reentrantExecutor.table [("x", letter 'x'), ("y", letter 'y')] {} =
        .ok reentrantExecutor ∧
      reentrantExecutor.Steps reentrantWindow .zero (start 0 .zero) reentrantReduced ∧
      reentrantExecutor.Accepting reentrantWindow reentrantReduced ∧
      reentrantReduced.buffer.head?.map (·.terminal) = some .endOfInput ∧
      reentrantReduced.nodes.length = 2 ∧
      (reentrantExecutor.parser 10 0 reentrantWindow .zero).result = .error .malformedStack :=
  ⟨Grammar.eq_ok_of_registry rfl (Registry.eq_of_lists rfl rfl rfl rfl rfl), rfl, rfl,
    reentrantReduced_steps, ⟨3, _, _, rfl, rfl, rfl⟩, rfl, rfl, rfl⟩

end Executor

end Mixfix
