import Mathlib.Logic.Relation
import Mixfix.Grammar

/-!
# Grammars and what they derive

A row of symbols derives another when the second arises from the first by replacing nonterminals by
right-hand sides of their rules, one after the other.

The checks of `Grammar.ofRules` make a grammar well formed: its first rule leads to the start
symbol, only nonterminals have rules, and every nonterminal that a rule uses has one.

* `Grammar.Derives`: derivation between rows of symbols.
* `Grammar.ofRules_eq_ok`: the grammar of some rules, with the checks it passed.
* `Grammar.WellFormed.of_ofRules`: every grammar so made is well formed.
-/

namespace Mixfix

section

variable {ε α β : Type}

theorem except_bind_eq_ok {x : Except ε α} {f : α → Except ε β} {b : β} :
    (x >>= f) = .ok b ↔ ∃ a, x = .ok a ∧ f a = .ok b := by
  cases x with
  | error e => exact ⟨fun h => (nomatch h), fun ⟨_, h, _⟩ => nomatch h⟩
  | ok a => exact ⟨fun h => ⟨a, rfl, h⟩, fun ⟨_, h, h'⟩ => by cases h; exact h'⟩

theorem except_map_eq_ok {x : Except ε α} {f : α → β} {b : β} :
    x.map f = .ok b ↔ ∃ a, x = .ok a ∧ f a = b := by
  cases x with
  | error e => exact ⟨fun h => (nomatch h), fun ⟨_, h, _⟩ => nomatch h⟩
  | ok a =>
    exact ⟨fun h => ⟨a, rfl, Except.ok.inj h⟩, fun ⟨_, h, h'⟩ => by cases h; exact congrArg _ h'⟩

theorem except_bind_eq_error {x : Except ε α} {f : α → Except ε β} {e : ε} :
    (x >>= f) = .error e ↔ x = .error e ∨ ∃ a, x = .ok a ∧ f a = .error e := by
  cases x with
  | error e' =>
    exact ⟨fun h => .inl (congrArg _ (Except.error.inj h)), fun h => h.elim
      (fun h => congrArg _ (Except.error.inj h)) fun ⟨_, h, _⟩ => nomatch h⟩
  | ok a =>
    refine ⟨fun h => .inr ⟨a, rfl, h⟩, ?_⟩
    rintro (h | ⟨_, h, h'⟩)
    · cases h
    · cases h
      exact h'

theorem except_map_eq_error {x : Except ε α} {f : α → β} {e : ε} :
    x.map f = .error e ↔ x = .error e := by
  cases x with
  | error e' =>
    exact ⟨fun h => congrArg _ (Except.error.inj h), fun h => congrArg _ (Except.error.inj h)⟩
  | ok a => exact ⟨fun h => (nomatch h), fun h => nomatch h⟩

/-- A sequence succeeds if its first part does and its second part after it. -/
theorem except_exists_bind {x : Except ε α} {f : α → Except ε β} {a : α} (hx : x = .ok a)
    (hf : ∃ b, f a = .ok b) : ∃ b, (x >>= f) = .ok b := by
  obtain ⟨b, hb⟩ := hf
  exact ⟨b, except_bind_eq_ok.2 ⟨a, hx, hb⟩⟩

theorem except_toOption_eq_some {x : Except ε α} {a : α} : x.toOption = some a ↔ x = .ok a := by
  cases x <;> simp [Except.toOption]

theorem except_lift_problem_eq_ok {x : Except Problem α} {a : α} :
    (liftM x : Except Failure α) = .ok a ↔ x = .ok a := by
  cases x with
  | error e => exact ⟨fun h => (nomatch h), fun h => nomatch h⟩
  | ok b => exact ⟨fun h => by cases h; rfl, fun h => by cases h; rfl⟩

/-- A check of every element passes exactly if each one passes. -/
theorem forM_eq_ok {f : α → Except ε Unit} {l : List α} :
    l.forM f = .ok () ↔ ∀ a ∈ l, f a = .ok () := by
  induction l with
  | nil => exact ⟨fun _ _ h => (nomatch h), fun _ => rfl⟩
  | cons a l ih =>
    rw [List.forM, except_bind_eq_ok, List.forall_mem_cons]
    constructor
    · rintro ⟨⟨⟩, ha, hl⟩
      exact ⟨ha, ih.1 hl⟩
    · rintro ⟨ha, hl⟩
      exact ⟨(), ha, ih.2 hl⟩

/-- Where every step of a fold succeeds, the fold does. -/
theorem exists_foldlM {f : β → α → Except ε β} {l : List α}
    (hf : ∀ b, ∀ a ∈ l, ∃ b', f b a = .ok b') (b : β) : ∃ b', l.foldlM f b = .ok b' := by
  induction l generalizing b with
  | nil => exact ⟨b, rfl⟩
  | cons a l ih =>
    obtain ⟨b₁, hb₁⟩ := hf b a List.mem_cons_self
    rw [List.foldlM_cons]
    exact except_exists_bind hb₁ (ih (fun b a ha => hf b a (List.mem_cons_of_mem _ ha)) b₁)

/-- Where a computation succeeds on every element, it does on the list. -/
theorem exists_mapM {f : α → Except ε β} {l : List α} (hf : ∀ a ∈ l, ∃ b, f a = .ok b) :
    ∃ bs, l.mapM f = .ok bs := by
  induction l with
  | nil => exact ⟨[], rfl⟩
  | cons a l ih =>
    obtain ⟨⟨b, hb⟩, hl⟩ := List.forall_mem_cons.1 hf
    obtain ⟨bs, hbs⟩ := ih hl
    rw [List.mapM_cons]
    exact except_exists_bind hb (except_exists_bind hbs ⟨_, rfl⟩)

end

namespace Grammar

/-! ### Derivation -/

/-- One nonterminal of a row gives way to the right-hand side of one of its rules. -/
def Rewrites (g : Grammar) (u v : List Handle) : Prop :=
  ∃ rule ∈ g.rules, ∃ before after,
    u = before ++ rule.lhs :: after ∧ v = before ++ rule.rhs ++ after

/-- A row of symbols becomes another by any number of rewritings. -/
def Derives (g : Grammar) : List Handle → List Handle → Prop := Relation.ReflTransGen g.Rewrites

variable {g : Grammar}

theorem Rewrites.append_left {u v : List Handle} (x : List Handle) (h : g.Rewrites u v) :
    g.Rewrites (x ++ u) (x ++ v) := by
  obtain ⟨rule, hr, before, after, rfl, rfl⟩ := h
  exact ⟨rule, hr, x ++ before, after, by simp, by simp⟩

theorem Rewrites.append_right {u v : List Handle} (x : List Handle) (h : g.Rewrites u v) :
    g.Rewrites (u ++ x) (v ++ x) := by
  obtain ⟨rule, hr, before, after, rfl, rfl⟩ := h
  exact ⟨rule, hr, before, after ++ x, by simp, by simp⟩

theorem Derives.append {u v u' v' : List Handle} (h : g.Derives u v) (h' : g.Derives u' v') :
    g.Derives (u ++ u') (v ++ v') := by
  have hl : g.Derives (u ++ u') (v ++ u') :=
    Relation.ReflTransGen.lift (· ++ u') (fun _ _ => Rewrites.append_right u') _ _ h
  have hr : g.Derives (v ++ u') (v ++ v') :=
    Relation.ReflTransGen.lift (v ++ ·) (fun _ _ => Rewrites.append_left v) _ _ h'
  exact hl.trans hr

theorem Derives.of_rule {rule : Rule} {w : List Handle} (hr : rule ∈ g.rules)
    (h : g.Derives rule.rhs w) : g.Derives [rule.lhs] w :=
  .head ⟨rule, hr, [], [], rfl, by simp⟩ h

/-! ### The checks -/

/-- The first rule leads to the start symbol, only nonterminals have rules, and every nonterminal in
use has one. -/
structure WellFormed (g : Grammar) : Prop where
  augmented : ∃ lhs, g.rules[0]? = some ⟨lhs, [g.start]⟩
  lhs_nonTerminal : ∀ rule ∈ g.rules, rule.lhs.isNonTerminal
  defined : ∀ rule ∈ g.rules, ∀ s ∈ rule.rhs, s.isNonTerminal → ∃ r ∈ g.rules, r.lhs = s

theorem checkRule_eq_ok {registry : Registry} {rules : List Rule} {rule : Rule} :
    checkRule registry rules rule = .ok () ↔
      rule.lhs.isNonTerminal ∧ ∀ s ∈ rule.rhs, s.isNonTerminal → ∃ r ∈ rules, r.lhs = s := by
  unfold checkRule
  by_cases hl : rule.lhs.isNonTerminal
  · rw [if_neg (by simpa using hl)]
    split
    · next s hs =>
      have hs' := List.find?_some hs
      simp only [Bool.and_eq_true, Bool.not_eq_true', List.any_eq_false, beq_iff_eq] at hs'
      constructor
      · intro h
        obtain ⟨_, _, h⟩ := except_bind_eq_ok.1 h
        cases h
      · rintro ⟨-, h⟩
        obtain ⟨r, hr, hrs⟩ := h s (List.mem_of_find?_eq_some hs) hs'.1
        exact absurd hrs (hs'.2 r hr)
    · next hn =>
      refine ⟨fun _ => ⟨hl, fun s hs hsn => ?_⟩, fun _ => rfl⟩
      have := List.find?_eq_none.1 hn s hs
      simp only [hsn, Bool.true_and, Bool.not_eq_true', Bool.not_eq_false, List.any_eq_true,
        beq_iff_eq] at this
      exact this
  · rw [if_pos (by simpa using hl)]
    constructor
    · intro h
      obtain ⟨_, _, h⟩ := except_bind_eq_ok.1 h
      cases h
    · rintro ⟨h, -⟩
      exact absurd h hl

/-- The grammar of some rules: the augmented rule comes first, and every rule passed its checks. -/
theorem ofRules_eq_ok {registry : Registry} {start : Handle} {rules : List Rule}
    {kinds : List (Handle × Kind)} (h : ofRules registry start rules kinds = .ok g) :
    ∃ augmented registry', registry.internSymbol augmentedStart = .ok (augmented, registry') ∧
      g = ⟨registry', ⟨augmented, [start]⟩ :: rules, start,
        (augmented, .transparent) :: kinds.reverse⟩ ∧
      ∀ rule ∈ g.rules, checkRule registry' g.rules rule = .ok () := by
  unfold ofRules at h
  by_cases hs : start.isNonTerminal
  · rw [if_neg (by simpa using hs)] at h
    obtain ⟨⟨augmented, registry'⟩, hi, h⟩ := except_bind_eq_ok.1 h
    obtain ⟨⟨⟩, hc, h⟩ := except_bind_eq_ok.1 h
    cases h
    exact ⟨augmented, registry', except_lift_problem_eq_ok.1 hi, rfl, forM_eq_ok.1 hc⟩
  · rw [if_pos (by simpa using hs)] at h
    obtain ⟨_, _, h⟩ := except_bind_eq_ok.1 h
    cases h

theorem WellFormed.of_ofRules {registry : Registry} {start : Handle} {rules : List Rule}
    {kinds : List (Handle × Kind)} (h : ofRules registry start rules kinds = .ok g) :
    g.WellFormed := by
  obtain ⟨augmented, registry', -, rfl, hc⟩ := ofRules_eq_ok h
  exact
    { augmented := ⟨augmented, rfl⟩
      lhs_nonTerminal := fun rule hr => (checkRule_eq_ok.1 (hc rule hr)).1
      defined := fun rule hr => (checkRule_eq_ok.1 (hc rule hr)).2 }

/-- What makes a grammar makes it with any registry that is equal to its own. -/
theorem eq_ok_of_registry {made : Except Failure Grammar} {registry registry' : Registry}
    {rules : List Rule} {start : Handle} {kinds : List (Handle × Kind)}
    (h : made = .ok ⟨registry, rules, start, kinds⟩) (heq : registry = registry') :
    made = .ok ⟨registry', rules, start, kinds⟩ := heq ▸ h

end Grammar

end Mixfix
