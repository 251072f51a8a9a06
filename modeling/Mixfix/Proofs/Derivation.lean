import Mathlib.Data.List.Forall2
import Mixfix.Executor
import Mixfix.Proofs.Grammar

/-!
# Derivation trees

A derivation tree records which rules were applied in a derivation; its leaves carry the tokens that
were taken for the terminals.

* `Derivation.Fits`: a tree applies the rules of the grammar, from a given symbol.
* `Derivation.node`: the parse result that a tree stands for.
* `Derivation.FitsAll.derives`: the symbols of some trees derive the terminals of their tokens.
* `Derivation.exists_fitsAll`: every derived row of terminals is the row of leaves of some trees.
-/

namespace Mixfix

/-- A derivation tree: a leaf is the token taken for a terminal, a branch applies a rule. -/
inductive Derivation (σ : Type) where
  | leaf (token : Executor.Ahead σ)
  | branch (rule : Nat) (children : List (Derivation σ))

namespace Derivation

variable {σ : Type}

mutual

/-- The tree derives from the symbol: a leaf from its terminal, a branch from the left-hand side of
its rule, with children that derive from the right-hand side. -/
def Fits (g : Grammar) : Derivation σ → Handle → Prop
  | .leaf token, s => s = token.terminal ∧ s.isTerminal
  | .branch id ds, s => ∃ rule, g.rules[id]? = some rule ∧ rule.lhs = s ∧ FitsAll g ds rule.rhs

/-- The trees derive from the symbols, one from each. -/
def FitsAll (g : Grammar) : List (Derivation σ) → List Handle → Prop
  | [], symbols => symbols = []
  | d :: ds, symbols => ∃ s rest, symbols = s :: rest ∧ Fits g d s ∧ FitsAll g ds rest

end

mutual

/-- The tokens at the leaves, in order. -/
def tokens : Derivation σ → List (Executor.Ahead σ)
  | .leaf token => [token]
  | .branch _ ds => tokensAll ds

/-- The tokens at the leaves of some trees, in order. -/
def tokensAll : List (Derivation σ) → List (Executor.Ahead σ)
  | [] => []
  | d :: ds => d.tokens ++ tokensAll ds

end

/-- The position after some tokens that begin at a position. -/
def stopOf (tokens : List (Executor.Ahead σ)) (p : Position) : Position :=
  (tokens.getLast?).elim p (·.parsed.stop)

mutual

/-- The result that a tree stands for: the nodes of the children become a tree of the kind of the
nonterminal, over their extent, or at the place of the tree if it has no children. -/
def node (g : Grammar) (w : Window) : Derivation σ → Position → Except Fault Node
  | .leaf token, _ => .ok token.parsed.node
  | .branch id ds, p => do
    match g.rules[id]? with
    | none => throw .missingRule
    | some rule =>
      let kind ← g.kind rule.lhs
      let children ← nodes g w ds p
      return Node.make kind (Executor.childrenSpan children (w.absolute p)) children

/-- The results of some trees, each where the one before ends. -/
def nodes (g : Grammar) (w : Window) : List (Derivation σ) → Position → Except Fault (List Node)
  | [], _ => .ok []
  | d :: ds, p => do
    let node ← d.node g w p
    let others ← nodes g w ds (stopOf d.tokens p)
    return node :: others

end

/-! ### Rows of trees -/

/-- Where each element is related to something, a row of elements is related to some row. -/
theorem exists_forall₂_of_forall {α β : Type} {R : α → β → Prop} {xs : List α}
    (h : ∀ x ∈ xs, ∃ y, R x y) : ∃ ys, List.Forall₂ R xs ys := by
  induction xs with
  | nil => exact ⟨[], .nil⟩
  | cons x xs ih =>
    obtain ⟨⟨y, hy⟩, hxs⟩ := List.forall_mem_cons.1 h
    obtain ⟨ys, hys⟩ := ih hxs
    exact ⟨y :: ys, .cons hy hys⟩

@[simp] theorem fitsAll_nil {g : Grammar} {symbols : List Handle} :
    FitsAll g ([] : List (Derivation σ)) symbols ↔ symbols = [] := by
  rw [FitsAll]

@[simp] theorem fitsAll_cons {g : Grammar} {d : Derivation σ} {ds : List (Derivation σ)}
    {s : Handle} {rest : List Handle} :
    FitsAll g (d :: ds) (s :: rest) ↔ Fits g d s ∧ FitsAll g ds rest := by
  rw [FitsAll]
  constructor
  · rintro ⟨_, _, h, hd, hds⟩
    cases h
    exact ⟨hd, hds⟩
  · rintro ⟨hd, hds⟩
    exact ⟨s, rest, rfl, hd, hds⟩

theorem fitsAll_iff {g : Grammar} {ds : List (Derivation σ)} {symbols : List Handle} :
    FitsAll g ds symbols ↔ List.Forall₂ (Fits g) ds symbols := by
  induction ds generalizing symbols with
  | nil => rw [fitsAll_nil, List.forall₂_nil_left_iff]
  | cons d ds ih =>
    cases symbols with
    | nil => simp [FitsAll]
    | cons s rest => rw [fitsAll_cons, List.forall₂_cons, ih]

theorem FitsAll.append {g : Grammar} {ds es : List (Derivation σ)} {u v : List Handle}
    (h : FitsAll g ds u) (h' : FitsAll g es v) : FitsAll g (ds ++ es) (u ++ v) := by
  induction ds generalizing u with
  | nil => rw [fitsAll_nil] at h; subst h; exact h'
  | cons d ds ih =>
    rw [FitsAll] at h
    obtain ⟨s, rest, rfl, hd, hds⟩ := h
    exact fitsAll_cons.2 ⟨hd, ih hds⟩

/-- Trees for a row of two parts are trees for the first part and trees for the second. -/
theorem FitsAll.split {g : Grammar} {ds : List (Derivation σ)} {u v : List Handle}
    (h : FitsAll g ds (u ++ v)) :
    ∃ ds₁ ds₂, ds = ds₁ ++ ds₂ ∧ FitsAll g ds₁ u ∧ FitsAll g ds₂ v := by
  induction u generalizing ds with
  | nil => exact ⟨[], ds, rfl, by simp, h⟩
  | cons s u ih =>
    cases ds with
    | nil => simp at h
    | cons d ds =>
      rw [List.cons_append, fitsAll_cons] at h
      obtain ⟨ds₁, ds₂, rfl, h₁, h₂⟩ := ih h.2
      exact ⟨d :: ds₁, ds₂, rfl, fitsAll_cons.2 ⟨h.1, h₁⟩, h₂⟩

theorem FitsAll.length_eq {g : Grammar} {ds : List (Derivation σ)} {u : List Handle}
    (h : FitsAll g ds u) : ds.length = u.length := by
  induction ds generalizing u with
  | nil => rw [fitsAll_nil] at h; subst h; rfl
  | cons d ds ih =>
    rw [FitsAll] at h
    obtain ⟨s, rest, rfl, -, hds⟩ := h
    rw [List.length_cons, List.length_cons, ih hds]

@[simp] theorem tokensAll_nil : tokensAll ([] : List (Derivation σ)) = [] := by
  rw [tokensAll]

@[simp] theorem tokensAll_cons (d : Derivation σ) (ds : List (Derivation σ)) :
    tokensAll (d :: ds) = d.tokens ++ tokensAll ds := by
  rw [tokensAll]

@[simp] theorem tokensAll_append (ds es : List (Derivation σ)) :
    tokensAll (ds ++ es) = tokensAll ds ++ tokensAll es := by
  induction ds with
  | nil => simp
  | cons d ds ih => simp [ih]

@[simp] theorem tokens_leaf (token : Executor.Ahead σ) : (leaf token).tokens = [token] := by
  rw [tokens]

@[simp] theorem tokens_branch (id : Nat) (ds : List (Derivation σ)) :
    (branch id ds).tokens = tokensAll ds := by
  rw [tokens]

@[simp] theorem stopOf_nil (p : Position) : stopOf ([] : List (Executor.Ahead σ)) p = p := rfl

theorem stopOf_append (ts us : List (Executor.Ahead σ)) (p : Position) :
    stopOf (ts ++ us) p = stopOf us (stopOf ts p) := by
  cases h : us.getLast? with
  | none =>
    rw [List.getLast?_eq_none_iff] at h
    subst h
    rw [List.append_nil, stopOf_nil]
  | some u => simp [stopOf, List.getLast?_append, h]

@[simp] theorem nodes_nil {g : Grammar} {w : Window} {p : Position} :
    nodes g w ([] : List (Derivation σ)) p = .ok [] := by
  rw [nodes]

theorem nodes_cons_eq_ok {g : Grammar} {w : Window} {d : Derivation σ} {ds : List (Derivation σ)}
    {p : Position} {ns : List Node} : nodes g w (d :: ds) p = .ok ns ↔
      ∃ n ns', ns = n :: ns' ∧ d.node g w p = .ok n ∧
        nodes g w ds (stopOf d.tokens p) = .ok ns' := by
  rw [nodes]
  cases d.node g w p with
  | error f => exact ⟨fun h => (nomatch h), fun ⟨_, _, _, h, _⟩ => nomatch h⟩
  | ok n =>
    cases nodes g w ds (stopOf d.tokens p) with
    | error f => exact ⟨fun h => (nomatch h), fun ⟨_, _, _, _, h⟩ => nomatch h⟩
    | ok ns' =>
      constructor
      · intro h
        cases h
        exact ⟨n, ns', rfl, rfl, rfl⟩
      · rintro ⟨_, _, rfl, hn, hns⟩
        cases hn
        cases hns
        rfl

/-- The results of two rows of trees, the second where the first ends. -/
theorem nodes_append_eq_ok {g : Grammar} {w : Window} {ds es : List (Derivation σ)} {p : Position}
    {ns : List Node} : nodes g w (ds ++ es) p = .ok ns ↔
      ∃ ns₁ ns₂, ns = ns₁ ++ ns₂ ∧ nodes g w ds p = .ok ns₁ ∧
        nodes g w es (stopOf (tokensAll ds) p) = .ok ns₂ := by
  induction ds generalizing p ns with
  | nil =>
    constructor
    · intro h
      exact ⟨[], ns, rfl, nodes_nil, h⟩
    · rintro ⟨ns₁, ns₂, rfl, h₁, h₂⟩
      cases nodes_nil.symm.trans h₁
      exact h₂
  | cons d ds ih =>
    rw [List.cons_append, nodes_cons_eq_ok, tokensAll_cons, stopOf_append]
    constructor
    · rintro ⟨n, ns', rfl, hn, h⟩
      obtain ⟨ns₁, ns₂, rfl, h₁, h₂⟩ := ih.1 h
      exact ⟨n :: ns₁, ns₂, rfl, nodes_cons_eq_ok.2 ⟨n, ns₁, rfl, hn, h₁⟩, h₂⟩
    · rintro ⟨_, ns₂, rfl, h, h₂⟩
      obtain ⟨n, ns₁, rfl, hn, h₁⟩ := nodes_cons_eq_ok.1 h
      exact ⟨n, ns₁ ++ ns₂, rfl, hn, ih.2 ⟨ns₁, ns₂, rfl, h₁, h₂⟩⟩

theorem length_of_nodes {g : Grammar} {w : Window} {ds : List (Derivation σ)} {p : Position}
    {ns : List Node} (h : nodes g w ds p = .ok ns) : ns.length = ds.length := by
  induction ds generalizing p ns with
  | nil => cases nodes_nil.symm.trans h; rfl
  | cons d ds ih =>
    obtain ⟨n, ns', rfl, -, h'⟩ := nodes_cons_eq_ok.1 h
    rw [List.length_cons, List.length_cons, ih h']

/-- A place matters to a span only where there are no children. -/
theorem childrenSpan_congr {ns : List Node} {p q : Position} (h : ns = [] → p = q) :
    Executor.childrenSpan ns p = Executor.childrenSpan ns q := by
  cases ns with
  | nil => rw [h rfl]
  | cons n ns => rfl

/-- The result of a branch is built from those of its children. -/
theorem node_branch_eq_ok {g : Grammar} {w : Window} {id : Nat} {rule : Rule}
    {ds : List (Derivation σ)} {p : Position} {n : Node} (hr : g.rules[id]? = some rule) :
    (branch id ds).node g w p = .ok n ↔ ∃ kind ns, g.kind rule.lhs = .ok kind ∧
      nodes g w ds p = .ok ns ∧
      n = Node.make kind (Executor.childrenSpan ns (w.absolute p)) ns := by
  rw [node, hr]
  constructor
  · intro h
    obtain ⟨kind, hkind, h⟩ := except_bind_eq_ok.1 h
    obtain ⟨ns, hns, h⟩ := except_bind_eq_ok.1 h
    cases h
    exact ⟨kind, ns, hkind, hns, rfl⟩
  · rintro ⟨kind, ns, hkind, hns, rfl⟩
    exact except_bind_eq_ok.2 ⟨kind, hkind, except_bind_eq_ok.2 ⟨ns, hns, rfl⟩⟩

theorem node_branch {g : Grammar} {w : Window} {id : Nat} {rule : Rule} {ds : List (Derivation σ)}
    {p : Position} {kind : Kind} {ns : List Node} (hr : g.rules[id]? = some rule)
    (hk : g.kind rule.lhs = .ok kind) (hn : nodes g w ds p = .ok ns) :
    (branch id ds).node g w p =
      .ok (Node.make kind (Executor.childrenSpan ns (w.absolute p)) ns) :=
  (node_branch_eq_ok hr).2 ⟨kind, ns, hk, hn, rfl⟩

/-! ### Trees and derivations -/

mutual

/-- The symbol of a tree derives the terminals of its tokens. -/
theorem Fits.derives {g : Grammar} : ∀ {d : Derivation σ} {s : Handle}, Fits g d s →
    g.Derives [s] (d.tokens.map (·.terminal))
  | .leaf token, s, h => by
    rw [Fits] at h
    rw [tokens_leaf, List.map_singleton, ← h.1]
    exact .refl
  | .branch id ds, s, h => by
    rw [Fits] at h
    obtain ⟨rule, hr, rfl, hds⟩ := h
    rw [tokens_branch]
    exact .of_rule (List.mem_of_getElem? hr) hds.derives

/-- The symbols of some trees derive the terminals of their tokens. -/
theorem FitsAll.derives {g : Grammar} : ∀ {ds : List (Derivation σ)} {symbols : List Handle},
    FitsAll g ds symbols → g.Derives symbols ((tokensAll ds).map (·.terminal))
  | [], symbols, h => by
    rw [fitsAll_nil] at h
    subst h
    rw [tokensAll_nil]
    exact .refl
  | d :: ds, symbols, h => by
    rw [FitsAll] at h
    obtain ⟨s, rest, rfl, hd, hds⟩ := h
    rw [tokensAll_cons, List.map_append]
    exact hd.derives.append hds.derives

end

mutual

theorem Fits.terminals {g : Grammar} : ∀ {d : Derivation σ} {s : Handle}, Fits g d s →
    ∀ token ∈ d.tokens, token.terminal.isTerminal
  | .leaf token, s, h, x, hx => by
    rw [Fits] at h
    rw [tokens_leaf, List.mem_singleton] at hx
    rw [hx, ← h.1]
    exact h.2
  | .branch id ds, s, h, x, hx => by
    rw [Fits] at h
    obtain ⟨rule, -, -, hds⟩ := h
    rw [tokens_branch] at hx
    exact hds.terminals x hx

/-- The leaves stand for terminals. -/
theorem FitsAll.terminals {g : Grammar} : ∀ {ds : List (Derivation σ)} {symbols : List Handle},
    FitsAll g ds symbols → ∀ token ∈ tokensAll ds, token.terminal.isTerminal
  | [], symbols, h, x, hx => by
    rw [tokensAll_nil] at hx
    cases hx
  | d :: ds, symbols, h, x, hx => by
    rw [FitsAll] at h
    obtain ⟨s, rest, rfl, hd, hds⟩ := h
    rw [tokensAll_cons] at hx
    rcases List.mem_append.1 hx with hx | hx
    · exact hd.terminals x hx
    · exact hds.terminals x hx

end

/-- Every derived row of terminals is the row of leaves of some trees. -/
theorem exists_fitsAll {g : Grammar} {symbols : List Handle} {tokens : List (Executor.Ahead σ)}
    (ht : ∀ token ∈ tokens, token.terminal.isTerminal)
    (h : g.Derives symbols (tokens.map (·.terminal))) :
    ∃ ds, FitsAll g ds symbols ∧ tokensAll ds = tokens := by
  -- From the last rewriting back to the first: the trees of a right-hand side join under a branch.
  induction h using Relation.ReflTransGen.head_induction_on with
  | refl =>
    refine ⟨tokens.map leaf, ?_, ?_⟩
    · induction tokens with
      | nil => exact fitsAll_nil.2 rfl
      | cons t ts ih =>
        refine fitsAll_cons.2 ⟨?_, ih fun x hx => ht x (List.mem_cons_of_mem t hx)⟩
        rw [Fits]
        exact ⟨rfl, ht t List.mem_cons_self⟩
    · clear ht
      induction tokens with
      | nil => exact tokensAll_nil
      | cons t ts ih => rw [List.map_cons, tokensAll_cons, tokens_leaf, ih, List.singleton_append]
  | head hs _ ih =>
    obtain ⟨ds, hds, htokens⟩ := ih
    obtain ⟨rule, hr, before, after, rfl, rfl⟩ := hs
    obtain ⟨front, back, rfl, hfront, hback⟩ := hds.split
    obtain ⟨left, children, rfl, hleft, hchildren⟩ := hfront.split
    obtain ⟨id, hid⟩ := List.getElem?_of_mem hr
    refine ⟨left ++ branch id children :: back, hleft.append (fitsAll_cons.2 ⟨?_, hback⟩), ?_⟩
    · rw [Fits]
      exact ⟨rule, hid, rfl, hchildren⟩
    · rw [← htokens]
      simp

end Derivation

end Mixfix
