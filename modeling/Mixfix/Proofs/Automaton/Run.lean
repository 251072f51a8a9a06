import Mixfix.Proofs.Automaton.Path
import Mixfix.Proofs.Derivation

/-!
# Runs of the automaton

A stack of states accepts a row of terminals if shifts over them and reductions before them lead to
the end. Nothing here chooses between the actions of a state: a stack accepts what some run accepts.

* `Automaton.Accepts`: the runs.
* `Automaton.accepts_of_derives`: from the first state, every word of the language is accepted.
-/

namespace Mixfix

/-- The augmented nonterminal is on no right-hand side. -/
def Grammar.Fresh (g : Grammar) : Prop := ∀ {augmented : Rule}, g.rules[0]? = some augmented →
  ∀ rule ∈ g.rules, augmented.lhs ∉ rule.rhs

namespace Automaton

open Ascending Mixfix.Derivation

/-- A stack of states, its top first, accepts a row of terminals and the end of input. -/
inductive Accepts (g : Grammar) (a : Automaton) : List Nat → List Handle → Prop where
  | accept {i k : Nat} {s : State} : a[i]? = some s → Maps s.actions .endOfInput .accept →
      Accepts g a [i, k] [.endOfInput]
  | shift {i j : Nat} {states : List Nat} {s : State} {t : Handle} {word : List Handle} :
      a[i]? = some s → (t, j) ∈ s.edges → t.isTerminal → Accepts g a (j :: i :: states) word →
      Accepts g a (i :: states) (t :: word)
  | reduce {i j k id : Nat} {states below : List Nat} {s s' : State} {rule : Rule} {t : Handle}
      {word : List Handle} :
      a[i]? = some s → Maps s.actions t (.reduce id) → g.rules[id]? = some rule →
      (i :: states).drop rule.rhs.length = k :: below → a[k]? = some s' →
      (rule.lhs, j) ∈ s'.edges → Accepts g a (j :: k :: below) (t :: word) →
      Accepts g a (i :: states) (t :: word)

variable {g : Grammar} {a : Automaton} {σ : Type}

theorem Canonical.maps_shift (hc : Canonical g a) {s : State} (hs : s ∈ a) {t : Handle} {j : Nat}
    (he : (t, j) ∈ s.edges) (ht : t.isTerminal) : Maps s.actions t (.shift j) := by
  rw [hc.actions hs]
  exact State.maps_actionsOf.2 (.inr ⟨j, he, ht, rfl⟩)

/-- A state that expects a nonterminal has the initial items of its rules, with the terminals that
may come next as their lookaheads. -/
theorem Canonical.initial_mem (hg : g.WellFormed) (hc : Canonical g a) {s : State} (hs : s ∈ a)
    {item : Item} (hitem : item ∈ s.items) {id : Nat} {rule : Rule} {rest : List Handle}
    {next : Handle} (hrest : item.rest g = rule.lhs :: rest)
    (hnext : next ∈ (First.ofGrammar g).startsBefore rest [item.lookahead])
    (hr : g.rules[id]? = some rule) : ⟨id, 0, next⟩ ∈ s.items := by
  obtain ⟨kernel, hkernel⟩ := hc.closed hs
  rw [hkernel] at hitem ⊢
  exact ItemSet.closure_closed hg hitem hrest
    (hg.lhs_nonTerminal rule (List.mem_of_getElem? hr)) hnext hr rfl

/-- The top of an accepting stack acts on the next terminal. -/
theorem Accepts.exists_action (hc : Canonical g a) {states : List Nat} {word : List Handle}
    (h : Accepts g a states word) : ∃ i below s t rest action, states = i :: below ∧
      a[i]? = some s ∧ word = t :: rest ∧ Maps s.actions t action := by
  cases h with
  | accept hs hmaps => exact ⟨_, _, _, _, _, _, rfl, hs, rfl, hmaps⟩
  | shift hs he ht _ =>
    exact ⟨_, _, _, _, _, _, rfl, hs, rfl, hc.maps_shift (List.mem_of_getElem? hs) he ht⟩
  | reduce hs hmaps => exact ⟨_, _, _, _, _, _, rfl, hs, rfl, hmaps⟩

/-- The last terminal that is accepted is the end of input. -/
theorem Accepts.eq_end (hc : Canonical g a) {states : List Nat} {word : List Handle}
    (h : Accepts g a states word) {t : Handle} (hword : word = [t]) : t = .endOfInput := by
  induction h with
  | accept =>
    cases hword
    rfl
  | shift _ _ _ haccepts _ =>
    cases hword
    obtain ⟨_, _, _, _, _, _, -, -, h, -⟩ := haccepts.exists_action hc
    cases h
  | reduce _ _ _ _ _ _ _ ih => exact ih hword

/-- A reduction is by the rule of a complete item. -/
theorem Canonical.exists_item_of_reduce (hc : Canonical g a) {s : State} (hs : s ∈ a) {t : Handle}
    {id : Nat} (h : Maps s.actions t (.reduce id)) :
    id ≠ 0 ∧ ∃ item ∈ s.items, item.isComplete g ∧ item.rule = id := by
  rw [hc.actions hs, State.maps_actionsOf] at h
  rcases h with ⟨item, hitem, hcomplete, -, heq⟩ | ⟨j, -, -, heq⟩
  · split at heq
    · cases heq
    · next h0 =>
      cases heq
      exact ⟨h0, item, hitem, hcomplete, rfl⟩
  · cases heq

/-- After a reduction the stack is a path again. -/
theorem Path.reduce (hc : Canonical g a) {i j k id : Nat} {states below : List Nat}
    {symbols : List Handle} (h : Path a (i :: states) symbols) {s s' : State} {t : Handle}
    (hs : a[i]? = some s) (hmaps : Maps s.actions t (.reduce id)) {rule : Rule}
    (hr : g.rules[id]? = some rule) (hdrop : (i :: states).drop rule.rhs.length = k :: below)
    (hs' : a[k]? = some s') (he : (rule.lhs, j) ∈ s'.edges) :
    Path a (j :: k :: below) (rule.lhs :: symbols.drop rule.rhs.length) := by
  obtain ⟨-, item, hitem, hcomplete, rfl⟩ :=
    hc.exists_item_of_reduce (List.mem_of_getElem? hs) hmaps
  obtain ⟨_, _, _, hdrop', hbelow, -⟩ := h.origin_of_complete hc rfl hs hitem hcomplete hr
  cases hdrop.symm.trans hdrop'
  exact .step hbelow hs' he

/-- The terminals of a tree's tokens. -/
def wordOf (ds : List (Derivation σ)) : List Handle := (tokensAll ds).map (·.terminal)

theorem wordOf_cons (d : Derivation σ) (ds : List (Derivation σ)) :
    wordOf (d :: ds) = d.tokens.map (·.terminal) ++ wordOf ds := by
  rw [wordOf, tokensAll_cons, List.map_append]
  rfl

/-- The next terminal of what follows some trees may stand before the rest of an item. -/
theorem exists_startsBefore (hg : g.WellFormed) {ds : List (Derivation σ)} {symbols : List Handle}
    (hfits : FitsAll g ds symbols) (next : Handle) (others : List Handle) :
    ∃ next' others', wordOf ds ++ next :: others = next' :: others' ∧
      next' ∈ (First.ofGrammar g).startsBefore symbols [next] := by
  have hterminals : ∀ t ∈ wordOf ds, t.isTerminal := by
    intro t ht
    obtain ⟨token, htoken, rfl⟩ := List.mem_map.1 ht
    exact hfits.terminals token htoken
  have hmem := fun t => First.mem_startsBefore_of_derives (t := t) hg hterminals hfits.derives
    (List.mem_singleton_self next)
  cases hword : wordOf ds with
  | nil => exact ⟨next, others, rfl, hmem _ (by rw [hword]; rfl)⟩
  | cons t word => exact ⟨t, word ++ next :: others, rfl, hmem _ (by rw [hword]; rfl)⟩

mutual

/-- In a state that expects the symbol of a tree, before a terminal that may come after it, the
stack accepts the terminals of the tree if the stack behind the symbol accepts the others. -/
theorem accepts_of_fits (hg : g.WellFormed) (hc : Canonical g a) (hfresh : g.Fresh) :
    ∀ {d : Derivation σ} {X : Handle}, Fits g d X →
    ∀ {states : List Nat} {others : List Handle} {i j : Nat} {s : State} {item : Item}
      {rest : List Handle} {next : Handle},
    a[i]? = some s → item ∈ s.items → item.rest g = X :: rest → (X, j) ∈ s.edges →
    next ∈ (First.ofGrammar g).startsBefore rest [item.lookahead] →
    Accepts g a (j :: i :: states) (next :: others) →
    Accepts g a (i :: states) (d.tokens.map (·.terminal) ++ next :: others)
  | .leaf token, X, hfit, states, others, i, j, s, item, rest, next, hs, hitem, hrest, hj, hnext,
      h => by
    rw [Fits] at hfit
    obtain ⟨rfl, ht⟩ := hfit
    rw [tokens_leaf]
    exact .shift hs hj ht h
  | .branch id ds, X, hfit, states, others, i, j, s, item, rest, next, hs, hitem, hrest, hj, hnext,
      h => by
    rw [Fits] at hfit
    obtain ⟨rule, hr, rfl, hds⟩ := hfit
    have hmem := List.mem_of_getElem? hs
    have hinitial : ⟨id, 0, next⟩ ∈ s.items := hc.initial_mem hg hmem hitem hrest hnext hr
    have hrhs : g.rhs id = rule.rhs := by rw [Grammar.rhs, hr]; rfl
    obtain ⟨path, top, below, t, hpath, htop, ht, hfinal, haccepts⟩ :=
      accepts_of_fitsAll hg hc hfresh hds states ⟨id, 0, next⟩ hs hinitial
        (by rw [Item.rest, List.drop_zero, hrhs])
    -- The augmented rule is no branch below a symbol: no rule uses its nonterminal.
    have h0 : id ≠ 0 := by
      rintro rfl
      obtain ⟨parent, hparent, -, hdrop⟩ := Item.rest_eq_cons hrest
      exact hfresh hr parent (List.mem_of_getElem? hparent)
        (List.mem_of_mem_drop (hdrop ▸ List.mem_cons_self))
    have hcomplete : (Item.mk id ds.length next).isComplete g := by
      rw [Item.isComplete, Item.rest, hrhs, hds.length_eq, List.drop_length]
      rfl
    rw [Nat.zero_add] at hfinal
    have hmaps : Maps t.actions next (.reduce id) := by
      rw [hc.actions (List.mem_of_getElem? ht)]
      exact State.maps_actionsOf.2 (.inl ⟨_, hfinal, hcomplete, rfl, if_neg h0⟩)
    rw [tokens_branch]
    refine haccepts others ?_
    rw [htop]
    refine .reduce ht hmaps hr ?_ hs hj h
    rw [← htop]
    exact List.drop_left' (hpath.trans hds.length_eq)

/-- In a state that expects the symbols of some trees, one tree after the other. -/
theorem accepts_of_fitsAll (hg : g.WellFormed) (hc : Canonical g a) (hfresh : g.Fresh) :
    ∀ {ds : List (Derivation σ)} {symbols : List Handle},
    FitsAll g ds symbols → ∀ (states : List Nat) (item : Item) {i : Nat} {s : State},
    a[i]? = some s → item ∈ s.items → item.rest g = symbols →
    ∃ path top below t, path.length = ds.length ∧ path ++ i :: states = top :: below ∧
      a[top]? = some t ∧ ⟨item.rule, item.dot + ds.length, item.lookahead⟩ ∈ t.items ∧
      ∀ others, Accepts g a (path ++ i :: states) (item.lookahead :: others) →
        Accepts g a (i :: states) (wordOf ds ++ item.lookahead :: others)
  | [], symbols, hfits, states, item, i, s, hs, hitem, hrest => by
    refine ⟨[], i, states, s, rfl, rfl, hs, hitem, fun others h => ?_⟩
    rw [wordOf, tokensAll_nil]
    exact h
  | d :: ds, symbols, hfits, states, item, i, s, hs, hitem, hrest => by
    rw [FitsAll] at hfits
    obtain ⟨X, rest, rfl, hd, hds⟩ := hfits
    have hX : item.next? g = some X := Item.next?_eq_some.2 ⟨rest, hrest⟩
    obtain ⟨j, hj⟩ := hc.exists_edge (List.mem_of_getElem? hs) hitem hX
    obtain ⟨t, ht, hitems⟩ := hc.edge (List.mem_of_getElem? hs) hj
    have hadvance : item.advance ∈ t.items := by
      rw [hitems]
      exact ItemSet.advance_mem_goto hitem hX
    have hrest' : item.advance.rest g = rest := by
      rw [Item.rest, Item.advance, ← List.drop_drop, ← Item.rest, hrest]
      rfl
    obtain ⟨path, top, below, t', hpath, htop, ht', hfinal, haccepts⟩ :=
      accepts_of_fitsAll hg hc hfresh hds (i :: states) item.advance ht hadvance hrest'
    refine ⟨path ++ [j], top, below, t', ?_, ?_, ht', ?_, fun others h => ?_⟩
    · rw [List.length_append, hpath]
      rfl
    · rw [List.append_assoc]
      exact htop
    · rw [List.length_cons, ← Nat.add_assoc, Nat.add_right_comm]
      exact hfinal
    · rw [List.append_assoc] at h
      -- What comes after the first tree begins the word of the others, or comes after all of them.
      obtain ⟨next', others', heq, hmem⟩ := exists_startsBefore hg hds item.lookahead others
      rw [wordOf_cons, List.append_assoc, heq]
      refine accepts_of_fits hg hc hfresh hd hs hitem hrest hj hmem ?_
      rw [← heq]
      exact haccepts others h

end

/-- **Every word of the language** is accepted from the first state. -/
theorem accepts_of_derives (hg : g.WellFormed) (hc : Canonical g a) (hfresh : g.Fresh)
    {word : List Handle} (hword : ∀ t ∈ word, t.isTerminal) (h : g.Derives [g.start] word) :
    Accepts g a [0] (word ++ [.endOfInput]) := by
  -- The tokens of the trees do not matter here.
  let tokens : List (Executor.Ahead Unit) := word.map fun t => ⟨t, (), .empty .zero, .zero⟩
  have htokens : tokens.map (·.terminal) = word := by
    rw [List.map_map]
    exact List.map_id word
  have hterminals : ∀ token ∈ tokens, token.terminal.isTerminal := by
    intro token htoken
    obtain ⟨t, ht, rfl⟩ := List.mem_map.1 htoken
    exact hword t ht
  rw [← htokens] at h ⊢
  obtain ⟨ds, hfits, hds⟩ := exists_fitsAll hterminals h
  obtain ⟨d, rfl⟩ := List.length_eq_one_iff.1 hfits.length_eq
  rw [tokensAll_cons, tokensAll_nil, List.append_nil] at hds
  obtain ⟨s, hs, hitems⟩ := hc.start
  obtain ⟨lhs, hr⟩ := hg.augmented
  have hrhs : g.rhs 0 = [g.start] := by rw [Grammar.rhs, hr]; rfl
  have hitem : ⟨0, 0, .endOfInput⟩ ∈ s.items := by
    rw [hitems]
    exact ItemSet.mem_closure.2 (.inr (List.mem_singleton_self _))
  have hrest : (Item.mk 0 0 .endOfInput).rest g = [g.start] := hrhs
  have hend : Handle.endOfInput ∈ (First.ofGrammar g).startsBefore [] [.endOfInput] :=
    First.mem_startsBefore.2 ⟨by simp, .inr ⟨fun _ h => (nomatch h), List.mem_singleton_self _⟩⟩
  have hnext : (Item.mk 0 0 .endOfInput).next? g = some g.start :=
    Item.next?_eq_some.2 ⟨[], hrest⟩
  obtain ⟨j, hj⟩ := hc.exists_edge (List.mem_of_getElem? hs) hitem hnext
  obtain ⟨t, ht, hgoto⟩ := hc.edge (List.mem_of_getElem? hs) hj
  have hfinal : ⟨0, 1, .endOfInput⟩ ∈ t.items := by
    rw [hgoto]
    exact ItemSet.advance_mem_goto hitem hnext
  have hcomplete : (Item.mk 0 1 .endOfInput).isComplete g := by
    rw [Item.isComplete, Item.rest, hrhs]
    rfl
  have hmaps : Maps t.actions .endOfInput .accept := by
    rw [hc.actions (List.mem_of_getElem? ht)]
    exact State.maps_actionsOf.2 (.inl ⟨_, hfinal, hcomplete, rfl, if_pos rfl⟩)
  rw [← hds]
  exact accepts_of_fits hg hc hfresh (fitsAll_cons.1 hfits).1 hs hitem hrest hj hend
    (.accept ht hmaps)

end Automaton

end Mixfix
