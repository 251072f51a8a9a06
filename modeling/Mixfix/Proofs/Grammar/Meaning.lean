import Mathlib
import Mixfix.Grammar.Lowering

/-!
# What rule bodies denote

A rule body denotes a language of terminals, given a language for every nonterminal: sequences are
concatenated, alternatives united, an option may be empty, and repetitions are Kleene stars. The
rules of a grammar are then a system of inequations between languages, and what its nonterminals
mean is the least solution of the system.

* `Expr.denote`: the language of a rule body.
* `ExprGrammar.meaning`: the least solution of the rules.
* `Expr.denote_normalize`: the normal form of a body denotes the same language.
-/

namespace Mixfix

open scoped Computability

/-- A language of terminals, each a group of symbols. -/
abbrev Words := Language (List String)

namespace Expr

mutual

/-- The words of a rule body, if the nonterminals have the given ones. -/
def denote (ρ : String → Words) : Expr → Words
  | .nonTerminal name => ρ name
  | .terminal symbols => {[symbols]}
  | .seq parts => denoteSeq ρ parts
  | .alt alternatives => denoteAlt ρ alternatives
  | .opt body => body.denote ρ + 1
  | .star body => (body.denote ρ)∗
  | .plus body => body.denote ρ * (body.denote ρ)∗

/-- One word of each part, in order. -/
def denoteSeq (ρ : String → Words) : List Expr → Words
  | [] => 1
  | e :: parts => e.denote ρ * denoteSeq ρ parts

/-- The words of all alternatives. -/
def denoteAlt (ρ : String → Words) : List Expr → Words
  | [] => 0
  | e :: alternatives => e.denote ρ + denoteAlt ρ alternatives

end

mutual

/-- The nonterminals of a rule body. -/
def names : Expr → List String
  | .nonTerminal name => [name]
  | .terminal _ => []
  | .seq parts => namesAll parts
  | .alt alternatives => namesAll alternatives
  | .opt body => body.names
  | .star body => body.names
  | .plus body => body.names

/-- The nonterminals of some rule bodies. -/
def namesAll : List Expr → List String
  | [] => []
  | e :: es => e.names ++ namesAll es

end

/-! ### More words for nonterminals, more words for bodies -/

section

variable {ρ ρ' : String → Words}

mutual

theorem denote_mono (h : ρ ≤ ρ') : ∀ e : Expr, e.denote ρ ≤ e.denote ρ'
  | .nonTerminal name => h name
  | .terminal _ => le_rfl
  | .seq parts => by
    rw [denote, denote]
    exact denoteSeq_mono h parts
  | .alt alternatives => by
    rw [denote, denote]
    exact denoteAlt_mono h alternatives
  | .opt body => by
    rw [denote, denote]
    exact add_le_add_left (denote_mono h body) 1
  | .star body => by
    rw [denote, denote]
    exact kstar_mono (denote_mono h body)
  | .plus body => by
    rw [denote, denote]
    exact mul_le_mul' (denote_mono h body) (kstar_mono (denote_mono h body))

theorem denoteSeq_mono (h : ρ ≤ ρ') : ∀ parts : List Expr, denoteSeq ρ parts ≤ denoteSeq ρ' parts
  | [] => le_rfl
  | e :: parts => by
    rw [denoteSeq, denoteSeq]
    exact mul_le_mul' (denote_mono h e) (denoteSeq_mono h parts)

theorem denoteAlt_mono (h : ρ ≤ ρ') :
    ∀ alternatives : List Expr, denoteAlt ρ alternatives ≤ denoteAlt ρ' alternatives
  | [] => le_rfl
  | e :: alternatives => by
    rw [denoteAlt, denoteAlt]
    exact add_le_add (denote_mono h e) (denoteAlt_mono h alternatives)

end

end

/-! ### The normal form -/

variable (ρ : String → Words)

@[simp] theorem denoteSeq_append (es es' : List Expr) :
    denoteSeq ρ (es ++ es') = denoteSeq ρ es * denoteSeq ρ es' := by
  induction es with
  | nil => simp [denoteSeq]
  | cons e es ih => simp [denoteSeq, ih, mul_assoc]

@[simp] theorem denoteAlt_append (es es' : List Expr) :
    denoteAlt ρ (es ++ es') = denoteAlt ρ es + denoteAlt ρ es' := by
  induction es with
  | nil => simp [denoteAlt]
  | cons e es ih => rw [List.cons_append, denoteAlt, denoteAlt, ih, add_assoc]

@[simp] theorem namesAll_append (es es' : List Expr) :
    namesAll (es ++ es') = namesAll es ++ namesAll es' := by
  induction es with
  | nil => simp [namesAll]
  | cons e es ih => simp [namesAll, ih]

@[simp] theorem denoteSeq_asParts (e : Expr) : denoteSeq ρ e.asParts = e.denote ρ := by
  cases e <;> simp [asParts, denote, denoteSeq]

@[simp] theorem denoteAlt_asAlternatives (e : Expr) :
    denoteAlt ρ e.asAlternatives = e.denote ρ := by
  cases e <;> simp [asAlternatives, denote, denoteAlt]

@[simp] theorem namesAll_asParts (e : Expr) : namesAll e.asParts = e.names := by
  cases e <;> simp [asParts, names, namesAll]

@[simp] theorem namesAll_asAlternatives (e : Expr) : namesAll e.asAlternatives = e.names := by
  cases e <;> simp [asAlternatives, names, namesAll]

@[simp] theorem denote_ofParts (parts : List Expr) :
    (ofParts parts).denote ρ = denoteSeq ρ parts := by
  unfold ofParts
  split <;> simp [denote, denoteSeq]

@[simp] theorem denote_ofAlternatives (alternatives : List Expr) :
    (ofAlternatives alternatives).denote ρ = denoteAlt ρ alternatives := by
  unfold ofAlternatives
  split <;> simp [denote, denoteAlt]

@[simp] theorem names_ofParts (parts : List Expr) : (ofParts parts).names = namesAll parts := by
  unfold ofParts
  split <;> simp [names, namesAll]

@[simp] theorem names_ofAlternatives (alternatives : List Expr) :
    (ofAlternatives alternatives).names = namesAll alternatives := by
  unfold ofAlternatives
  split <;> simp [names, namesAll]

mutual

/-- The normal form of a body denotes the language of the body. -/
theorem denote_normalize : ∀ e : Expr, e.normalize.denote ρ = e.denote ρ
  | .nonTerminal _ => rfl
  | .terminal _ => rfl
  | .seq parts => by simp [normalize, denote, denoteSeq_normalizeParts parts]
  | .alt alternatives => by simp [normalize, denote, denoteAlt_normalizeAlternatives alternatives]
  | .opt body | .star body | .plus body => by simp [normalize, denote, denote_normalize body]

theorem denoteSeq_normalizeParts :
    ∀ parts : List Expr, denoteSeq ρ (normalizeParts parts) = denoteSeq ρ parts
  | [] => rfl
  | e :: parts => by
    simp [normalizeParts, denoteSeq, denote_normalize e, denoteSeq_normalizeParts parts]

theorem denoteAlt_normalizeAlternatives :
    ∀ es : List Expr, denoteAlt ρ (normalizeAlternatives es) = denoteAlt ρ es
  | [] => rfl
  | e :: es => by
    simp [normalizeAlternatives, denoteAlt, denote_normalize e, denoteAlt_normalizeAlternatives es]

end

mutual

/-- The normal form of a body has the nonterminals of the body. -/
theorem names_normalize : ∀ e : Expr, e.normalize.names = e.names
  | .nonTerminal _ => rfl
  | .terminal _ => rfl
  | .seq parts => by simp [normalize, names, namesAll_normalizeParts parts]
  | .alt alternatives => by simp [normalize, names, namesAll_normalizeAlternatives alternatives]
  | .opt body | .star body | .plus body => by simp [normalize, names, names_normalize body]

theorem namesAll_normalizeParts :
    ∀ parts : List Expr, namesAll (normalizeParts parts) = namesAll parts
  | [] => rfl
  | e :: parts => by
    simp [normalizeParts, namesAll, names_normalize e, namesAll_normalizeParts parts]

theorem namesAll_normalizeAlternatives :
    ∀ es : List Expr, namesAll (normalizeAlternatives es) = namesAll es
  | [] => rfl
  | e :: es => by
    simp [normalizeAlternatives, namesAll, names_normalize e, namesAll_normalizeAlternatives es]

end

end Expr

namespace ExprGrammar

variable {g : ExprGrammar}

/-- The words that the rules give to each nonterminal, if the nonterminals have the given ones. -/
def unfoldRules (g : ExprGrammar) : (String → Words) →o (String → Words) where
  toFun ρ name := {w | ∃ rule ∈ g.rules, rule.1 = name ∧ w ∈ rule.2.denote ρ}
  monotone' := by
    intro ρ ρ' h name w hw
    obtain ⟨rule, hr, hn, hw⟩ := hw
    exact ⟨rule, hr, hn, Expr.denote_mono h rule.2 hw⟩

/-- What the nonterminals mean: the least languages that satisfy the rules. -/
def meaning (g : ExprGrammar) : String → Words := g.unfoldRules.lfp

/-- The languages satisfy the rules: each nonterminal has the words of all its bodies. -/
def Satisfies (g : ExprGrammar) (ρ : String → Words) : Prop :=
  ∀ rule ∈ g.rules, rule.2.denote ρ ≤ ρ rule.1

theorem satisfies_iff {ρ : String → Words} : g.Satisfies ρ ↔ g.unfoldRules ρ ≤ ρ := by
  constructor
  · intro h name w hw
    obtain ⟨rule, hr, rfl, hw⟩ := hw
    exact h rule hr hw
  · intro h rule hr w hw
    exact h rule.1 ⟨rule, hr, rfl, hw⟩

theorem satisfies_meaning (g : ExprGrammar) : g.Satisfies g.meaning :=
  satisfies_iff.2 g.unfoldRules.map_lfp.le

theorem meaning_le {ρ : String → Words} (h : g.Satisfies ρ) : g.meaning ≤ ρ :=
  g.unfoldRules.lfp_le (satisfies_iff.1 h)

end ExprGrammar

end Mixfix
