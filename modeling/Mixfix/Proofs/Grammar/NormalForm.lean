import Mixfix.Proofs.Grammar.Meaning

/-!
# The normal form of rule bodies

An expression is in normal form if nowhere in it a sequence stands directly inside a sequence or a
choice directly inside a choice, and no sequence and no choice has exactly one part.  One pass from
the bottom up gets there.  What a normal part puts into a sequence around it is no sequence, even if
the part was a sequence with one part before; so only the outermost level is left to look at, and
there a sequence with one part is opened into that part, which is in normal form already.

* `Expr.IsNormal`: expressions in normal form.
* `Expr.isNormal_normalize`: the pass ends in normal form.
* `Expr.normalize_of_isNormal`: it leaves an expression in normal form as it is.
* `Expr.normalize_normal`: both, with what the normal form denotes.
-/

namespace Mixfix.Expr

/-- An expression stands anywhere in another, or is the other. -/
inductive Part : Expr → Expr → Prop where
  | self {e : Expr} : Part e e
  | seq {e part : Expr} {parts : List Expr} : part ∈ parts → Part e part → Part e (.seq parts)
  | alt {e part : Expr} {parts : List Expr} : part ∈ parts → Part e part → Part e (.alt parts)
  | opt {e body : Expr} : Part e body → Part e (.opt body)
  | star {e body : Expr} : Part e body → Part e (.star body)
  | plus {e body : Expr} : Part e body → Part e (.plus body)

/-- A sequence. -/
def IsSeq : Expr → Prop
  | .seq _ => True
  | .nonTerminal _ | .terminal _ | .alt _ | .opt _ | .star _ | .plus _ => False

/-- A choice. -/
def IsAlt : Expr → Prop
  | .alt _ => True
  | .nonTerminal _ | .terminal _ | .seq _ | .opt _ | .star _ | .plus _ => False

/-- A sequence with no sequence directly inside it and not with exactly one part, a choice with no
choice directly inside it and not with exactly one alternative, or anything else. -/
def NormalAtRoot : Expr → Prop
  | .seq parts => parts.length ≠ 1 ∧ ∀ part ∈ parts, ¬ part.IsSeq
  | .alt alternatives => alternatives.length ≠ 1 ∧ ∀ e ∈ alternatives, ¬ e.IsAlt
  | .nonTerminal _ | .terminal _ | .opt _ | .star _ | .plus _ => True

/-- In normal form: all that stands in the expression is normal at its root. -/
def IsNormal (e : Expr) : Prop := ∀ part, Part part e → part.NormalAtRoot

/-- Expressions that may stand directly inside a sequence in normal form. -/
def NormalParts (parts : List Expr) : Prop := ∀ part ∈ parts, ¬ part.IsSeq ∧ part.IsNormal

/-- Expressions that may stand directly inside a choice in normal form. -/
def NormalAlternatives (alternatives : List Expr) : Prop :=
  ∀ e ∈ alternatives, ¬ e.IsAlt ∧ e.IsNormal

/-! ### Normal form, level by level -/

theorem isNormal_nonTerminal (name : String) : (nonTerminal name).IsNormal := by
  rintro _ ⟨⟩
  trivial

theorem isNormal_terminal (symbols : List String) : (terminal symbols).IsNormal := by
  rintro _ ⟨⟩
  trivial

theorem isNormal_seq {parts : List Expr} :
    (seq parts).IsNormal ↔ parts.length ≠ 1 ∧ NormalParts parts := by
  constructor
  · intro h
    obtain ⟨hone, hseq⟩ : (seq parts).NormalAtRoot := h _ .self
    exact ⟨hone, fun part hp => ⟨hseq part hp, fun e he => h e (.seq hp he)⟩⟩
  · rintro ⟨hone, hparts⟩ e (_ | ⟨hp, he⟩)
    · exact ⟨hone, fun part hp => (hparts part hp).1⟩
    · exact (hparts _ hp).2 e he

theorem isNormal_alt {alternatives : List Expr} :
    (alt alternatives).IsNormal ↔ alternatives.length ≠ 1 ∧ NormalAlternatives alternatives := by
  constructor
  · intro h
    obtain ⟨hone, halt⟩ : (alt alternatives).NormalAtRoot := h _ .self
    exact ⟨hone, fun e he => ⟨halt e he, fun e' he' => h e' (.alt he he')⟩⟩
  · rintro ⟨hone, hes⟩ e' (_ | ⟨-, he⟩ | ⟨he, he'⟩)
    · exact ⟨hone, fun e he => (hes e he).1⟩
    · exact (hes _ he).2 e' he'

theorem isNormal_opt {body : Expr} : (opt body).IsNormal ↔ body.IsNormal := by
  refine ⟨fun h e he => h e (.opt he), fun h e he => ?_⟩
  cases he with
  | self => trivial
  | opt he => exact h e he

theorem isNormal_star {body : Expr} : (star body).IsNormal ↔ body.IsNormal := by
  refine ⟨fun h e he => h e (.star he), fun h e he => ?_⟩
  cases he with
  | self => trivial
  | star he => exact h e he

theorem isNormal_plus {body : Expr} : (plus body).IsNormal ↔ body.IsNormal := by
  refine ⟨fun h e he => h e (.plus he), fun h e he => ?_⟩
  cases he with
  | self => trivial
  | plus he => exact h e he

/-! ### The pass ends in normal form -/

/-- What a normal expression puts into a sequence around it. -/
theorem IsNormal.normalParts {e : Expr} (h : e.IsNormal) : NormalParts e.asParts := by
  cases e with
  | seq parts => exact (isNormal_seq.1 h).2
  | nonTerminal _ | terminal _ | alt _ | opt _ | star _ | plus _ =>
    intro part hp
    cases List.mem_singleton.1 hp
    exact ⟨id, h⟩

/-- What a normal expression puts among the alternatives around it. -/
theorem IsNormal.normalAlternatives {e : Expr} (h : e.IsNormal) :
    NormalAlternatives e.asAlternatives := by
  cases e with
  | alt alternatives => exact (isNormal_alt.1 h).2
  | nonTerminal _ | terminal _ | seq _ | opt _ | star _ | plus _ =>
    intro e' he'
    cases List.mem_singleton.1 he'
    exact ⟨id, h⟩

/-- A sequence of such parts is normal once it is opened if it has one part only. -/
theorem isNormal_ofParts {parts : List Expr} (h : NormalParts parts) :
    (ofParts parts).IsNormal := by
  match parts, h with
  | [], h => exact isNormal_seq.2 ⟨Nat.zero_ne_one, h⟩
  | [e], h => exact (h e List.mem_cons_self).2
  | _ :: _ :: _, h => exact isNormal_seq.2 ⟨by simp, h⟩

theorem isNormal_ofAlternatives {alternatives : List Expr} (h : NormalAlternatives alternatives) :
    (ofAlternatives alternatives).IsNormal := by
  match alternatives, h with
  | [], h => exact isNormal_alt.2 ⟨Nat.zero_ne_one, h⟩
  | [e], h => exact (h e List.mem_cons_self).2
  | _ :: _ :: _, h => exact isNormal_alt.2 ⟨by simp, h⟩

mutual

/-- The pass ends in normal form. -/
theorem isNormal_normalize : ∀ e : Expr, e.normalize.IsNormal
  | .nonTerminal name => isNormal_nonTerminal name
  | .terminal symbols => isNormal_terminal symbols
  | .seq parts => by
    rw [normalize]
    exact isNormal_ofParts (normalParts_normalizeParts parts)
  | .alt alternatives => by
    rw [normalize]
    exact isNormal_ofAlternatives (normalAlternatives_normalizeAlternatives alternatives)
  | .opt body => by
    rw [normalize]
    exact isNormal_opt.2 (isNormal_normalize body)
  | .star body => by
    rw [normalize]
    exact isNormal_star.2 (isNormal_normalize body)
  | .plus body => by
    rw [normalize]
    exact isNormal_plus.2 (isNormal_normalize body)

theorem normalParts_normalizeParts : ∀ parts : List Expr, NormalParts (normalizeParts parts)
  | [] => fun _ h => nomatch h
  | e :: parts => by
    rw [normalizeParts]
    exact List.forall_mem_append.2
      ⟨(isNormal_normalize e).normalParts, normalParts_normalizeParts parts⟩

theorem normalAlternatives_normalizeAlternatives :
    ∀ es : List Expr, NormalAlternatives (normalizeAlternatives es)
  | [] => fun _ h => nomatch h
  | e :: es => by
    rw [normalizeAlternatives]
    exact List.forall_mem_append.2
      ⟨(isNormal_normalize e).normalAlternatives, normalAlternatives_normalizeAlternatives es⟩

end

/-! ### The pass leaves normal forms as they are -/

theorem asParts_of_not_isSeq {e : Expr} (h : ¬ e.IsSeq) : e.asParts = [e] := by
  cases e with
  | seq parts => exact absurd trivial h
  | nonTerminal _ | terminal _ | alt _ | opt _ | star _ | plus _ => rfl

theorem asAlternatives_of_not_isAlt {e : Expr} (h : ¬ e.IsAlt) : e.asAlternatives = [e] := by
  cases e with
  | alt alternatives => exact absurd trivial h
  | nonTerminal _ | terminal _ | seq _ | opt _ | star _ | plus _ => rfl

theorem ofParts_of_length_ne_one {parts : List Expr} (h : parts.length ≠ 1) :
    ofParts parts = .seq parts := by
  match parts, h with
  | [], _ => rfl
  | [_], h => exact absurd rfl h
  | _ :: _ :: _, _ => rfl

theorem ofAlternatives_of_length_ne_one {es : List Expr} (h : es.length ≠ 1) :
    ofAlternatives es = .alt es := by
  match es, h with
  | [], _ => rfl
  | [_], h => exact absurd rfl h
  | _ :: _ :: _, _ => rfl

mutual

/-- An expression in normal form is its own normal form. -/
theorem normalize_of_isNormal : ∀ {e : Expr}, e.IsNormal → e.normalize = e
  | .nonTerminal _, _ => by rw [normalize]
  | .terminal _, _ => by rw [normalize]
  | .seq parts, h => by
    obtain ⟨hone, hparts⟩ := isNormal_seq.1 h
    rw [normalize, normalizeParts_of_normalParts hparts, ofParts_of_length_ne_one hone]
  | .alt alternatives, h => by
    obtain ⟨hone, hes⟩ := isNormal_alt.1 h
    rw [normalize, normalizeAlternatives_of_normalAlternatives hes,
      ofAlternatives_of_length_ne_one hone]
  | .opt body, h => by rw [normalize, normalize_of_isNormal (isNormal_opt.1 h)]
  | .star body, h => by rw [normalize, normalize_of_isNormal (isNormal_star.1 h)]
  | .plus body, h => by rw [normalize, normalize_of_isNormal (isNormal_plus.1 h)]

theorem normalizeParts_of_normalParts :
    ∀ {parts : List Expr}, NormalParts parts → normalizeParts parts = parts
  | [], _ => by rw [normalizeParts]
  | e :: parts, h => by
    obtain ⟨⟨hseq, he⟩, hparts⟩ := List.forall_mem_cons.1 h
    rw [normalizeParts, normalize_of_isNormal he, asParts_of_not_isSeq hseq,
      normalizeParts_of_normalParts hparts, List.singleton_append]

theorem normalizeAlternatives_of_normalAlternatives :
    ∀ {es : List Expr}, NormalAlternatives es → normalizeAlternatives es = es
  | [], _ => by rw [normalizeAlternatives]
  | e :: es, h => by
    obtain ⟨⟨halt, he⟩, hes⟩ := List.forall_mem_cons.1 h
    rw [normalizeAlternatives, normalize_of_isNormal he, asAlternatives_of_not_isAlt halt,
      normalizeAlternatives_of_normalAlternatives hes, List.singleton_append]

end

/-- **The normal form** of a rule body denotes what the body does, whatever the nonterminals mean.
Nowhere in it a sequence stands directly inside a sequence or a choice directly inside a choice, and
none of them has exactly one part.  A body that is so is its own normal form, and so to normalize a
second time changes nothing. -/
theorem normalize_normal (e : Expr) :
    (∀ ρ : String → Words, e.normalize.denote ρ = e.denote ρ) ∧
      (∀ parts, Part (.seq parts) e.normalize →
        parts.length ≠ 1 ∧ ∀ part ∈ parts, ∀ inner, part ≠ .seq inner) ∧
      (∀ alternatives, Part (.alt alternatives) e.normalize →
        alternatives.length ≠ 1 ∧ ∀ part ∈ alternatives, ∀ inner, part ≠ .alt inner) ∧
      (e.IsNormal ↔ e.normalize = e) ∧
      e.normalize.normalize = e.normalize := by
  have hnormal := isNormal_normalize e
  refine ⟨fun ρ => denote_normalize ρ e, fun parts hp => ?_, fun alternatives hp => ?_,
    ⟨normalize_of_isNormal, fun heq => heq ▸ hnormal⟩, normalize_of_isNormal hnormal⟩
  · obtain ⟨hone, hseq⟩ : (seq parts).NormalAtRoot := hnormal _ hp
    refine ⟨hone, fun part hmem inner heq => hseq part hmem ?_⟩
    rw [heq]
    trivial
  · obtain ⟨hone, halt⟩ : (alt alternatives).NormalAtRoot := hnormal _ hp
    refine ⟨hone, fun part hmem inner heq => halt part hmem ?_⟩
    rw [heq]
    trivial

end Mixfix.Expr
