import Mixfix.Proofs.Assembly.Alternatives
import Mixfix.Proofs.Assembly.Spacing

/-!
# Trees of declared syntax

A tree of a nonterminal of declared syntax applies one of its alternatives, and its children are
trees of the parts of that row; the trees of a terminal are its tokens.

* `Assembled.IsToken`, `Assembled.IsNamed`, `Assembled.IsPart`: the trees of a terminal, of a name
  and of a part of a row.
* `Catalogue.Assembles.exists_branch`: a tree of a nonterminal applies one of its alternatives.
* `Catalogue.Assembles.exists_named`: trees of the parts of an alternative make one of the
  nonterminal.
-/

namespace Mixfix

namespace Derivation

variable {σ : Type} {g : Grammar}

/-- A tree of a terminal is a token. -/
theorem Fits.eq_leaf (hg : g.WellFormed) {d : Derivation σ} {s : Handle} (h : d.Fits g s)
    (hs : s.isTerminal) : ∃ token, d = leaf token ∧ token.terminal = s := by
  cases d with
  | leaf token =>
    rw [Fits] at h
    exact ⟨token, rfl, h.1.symm⟩
  | branch id ds =>
    rw [Fits] at h
    obtain ⟨rule, hrule, rfl, -⟩ := h
    have hn := hg.lhs_nonTerminal rule (List.mem_of_getElem? hrule)
    rw [Handle.isNonTerminal_eq, hs] at hn
    cases hn

theorem Fits.unique {d : Derivation σ} {s s' : Handle} (h : d.Fits g s) (h' : d.Fits g s') :
    s = s' := by
  cases d with
  | leaf token =>
    rw [Fits] at h h'
    exact h.1.trans h'.1.symm
  | branch id ds =>
    rw [Fits] at h h'
    obtain ⟨rule, hrule, rfl, -⟩ := h
    obtain ⟨rule', hrule', rfl, -⟩ := h'
    cases hrule.symm.trans hrule'
    rfl

end Derivation

open Mixfix.Derivation

variable {σ : Type}

namespace Assembled

/-- The tree is a token of the terminal. -/
def IsToken (a : Assembled) (t : Terminal) (d : Derivation σ) : Prop :=
  ∃ token, d = .leaf token ∧ a.table.grammar.registry.handleOf t = some token.terminal

/-- The tree is one of the nonterminal with this name. -/
def IsNamed (a : Assembled) (name : String) (d : Derivation σ) : Prop :=
  ∃ X, a.table.grammar.registry.find? [name] = some X ∧ d.Fits a.table.grammar X

/-- The tree is one of the part of a row. -/
def IsPart (a : Assembled) (e : Expr) (d : Derivation σ) : Prop :=
  ∃ X, a.table.grammar.registry.Stands e X ∧ d.Fits a.table.grammar X

theorem IsNamed.unique {a : Assembled} {name name' : String} {d : Derivation σ}
    (h : a.IsNamed name d) (h' : a.IsNamed name' d) : name = name' := by
  obtain ⟨X, hX, hfits⟩ := h
  obtain ⟨X', hX', hfits'⟩ := h'
  cases hfits.unique hfits'
  cases Registry.find?_inj hX hX'
  rfl

/-- The handle of a part determines its trees. -/
theorem isPart_iff {a : Assembled} {e : Expr} {X : Handle}
    (hX : a.table.grammar.registry.Stands e X) {d : Derivation σ} :
    a.IsPart e d ↔ d.Fits a.table.grammar X := by
  refine ⟨fun ⟨Y, hY, hfits⟩ => ?_, fun hfits => ⟨X, hX, hfits⟩⟩
  rwa [hX.unique hY]

theorem forall₂_isPart_iff {a : Assembled} {row : List Expr} {rhs : List Handle}
    (h : List.Forall₂ a.table.grammar.registry.Stands row rhs) {ds : List (Derivation σ)} :
    List.Forall₂ a.IsPart row ds ↔ FitsAll a.table.grammar ds rhs := by
  induction h generalizing ds with
  | nil => rw [List.forall₂_nil_left_iff, fitsAll_iff, List.forall₂_nil_right_iff]
  | cons hX _ ih =>
    cases ds with
    | nil => simp [FitsAll]
    | cons d ds => rw [List.forall₂_cons, fitsAll_cons, isPart_iff hX, ih]

end Assembled

namespace Catalogue

variable {c : Catalogue} {entry : Entry} {a : Assembled} {known : List String}
  {ds : List (Nat × Declaration)} {start : String}

namespace Assembles

/-- A tree of a nonterminal applies one of its alternatives. -/
theorem exists_branch (h : c.Assembles entry a known ds start) {name : String}
    (hname : IsName name) {d : Derivation σ} (hd : a.IsNamed name d) :
    ∃ row id rule children, Alternative entry a.priorities ds name row ∧ d = .branch id children ∧
      a.table.grammar.rules[id]? = some rule ∧
      a.table.grammar.registry.find? [name] = some rule.lhs ∧
      List.Forall₂ a.IsPart row children := by
  obtain ⟨X, hX, hfits⟩ := hd
  cases d with
  | leaf token =>
    have hn : X.isNonTerminal :=
      (Registry.isNonTerminal_of_find? hX).trans hname.isNonTerminalSymbol
    rw [Fits] at hfits
    rw [Handle.isNonTerminal_eq, hfits.2] at hn
    cases hn
  | branch id children =>
    rw [Fits] at hfits
    obtain ⟨rule, hrule, rfl, hchildren⟩ := hfits
    obtain ⟨row, hrow, hrhs⟩ := h.alternative_of_find? (List.mem_of_getElem? hrule) hname hX
    exact ⟨row, id, rule, children, hrow, rfl, hrule, hX,
      (Assembled.forall₂_isPart_iff hrhs).2 hchildren⟩

/-- Trees of the parts of an alternative make a tree of the nonterminal. -/
theorem exists_named (h : c.Assembles entry a known ds start) {name : String} {row : List Expr}
    (hrow : Alternative entry a.priorities ds name row) {children : List (Derivation σ)}
    (hchildren : List.Forall₂ a.IsPart row children) :
    ∃ id rule, a.table.grammar.rules[id]? = some rule ∧
      a.table.grammar.registry.find? [name] = some rule.lhs ∧
      a.IsNamed name (.branch id children) := by
  obtain ⟨id, rule, hrule, hlhs, hrhs⟩ := h.exists_rule hrow
  refine ⟨id, rule, hrule, hlhs, rule.lhs, hlhs, ?_⟩
  rw [Fits]
  exact ⟨rule, hrule, rfl, (Assembled.forall₂_isPart_iff hrhs).1 hchildren⟩

theorem isPart_name {name : String} (hname : IsName name) {d : Derivation σ} :
    a.IsPart (.nonTerminal name) d ↔ a.IsNamed name d := by
  refine ⟨fun ⟨X, hX, hfits⟩ => ⟨X, hX.1, hfits⟩, fun ⟨X, hX, hfits⟩ => ⟨X, ⟨hX, ?_⟩, hfits⟩⟩
  exact (Registry.isNonTerminal_of_find? hX).trans hname.isNonTerminalSymbol

theorem isPart_term (h : c.Assembles entry a known ds start) {t : Terminal}
    (ht : t ∈ Terminal.every (literalsOf ds)) (hne : t ≠ .endOfInput) {d : Derivation σ} :
    a.IsPart (termExpr t) d ↔ a.IsToken t d := by
  constructor
  · rintro ⟨X, hX, hfits⟩
    obtain ⟨token, rfl, rfl⟩ := hfits.eq_leaf h.wellFormed hX.2
    exact ⟨token, rfl, h.handleOf_of_stands ht hne hX⟩
  · rintro ⟨token, rfl, htoken⟩
    have hterminal := Registry.isTerminal_of_handleOf htoken
    refine ⟨token.terminal, ⟨?_, hterminal⟩, ?_⟩
    · rw [Registry.handleOf_ne hne] at htoken
      rw [h.symbolsOfName_key ht]
      exact htoken
    · rw [Fits]
      exact ⟨rfl, hterminal⟩

theorem exists_token (h : c.Assembles entry a known ds start) (s : σ) {t : Terminal}
    (ht : t ∈ Terminal.every (literalsOf ds)) : ∃ d : Derivation σ, a.IsToken t d := by
  obtain ⟨k, hk⟩ := h.lexicon.exists_handle t ht
  exact ⟨.leaf ⟨k, s, .token ⟨t.key, ⟨.zero, .zero⟩⟩, .zero⟩, _, rfl, hk⟩

end Assembles

end Catalogue

end Mixfix
