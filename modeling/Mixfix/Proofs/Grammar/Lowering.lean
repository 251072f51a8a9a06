import Mixfix.Proofs.Grammar.Language

/-!
# The rules made for an expression

Lowering an expression adds rules and gives symbols that stand for it. That they do is said from
both sides. Whatever languages satisfy the rules, the symbols have at least the words of the
expression. And languages that satisfy the rules made before can be changed, only at nonterminals
made since, to satisfy the new rules with exactly the words of the expression for the symbols.

The second part rests on made nonterminals having names of their own: the name of a made nonterminal
is not one that a user may write, and its number sets it apart from all that were made before.

* `madeName_notMem`: a made nonterminal has a new name.
* `Lowering.Realizes`: what is said of every construction.
* `Lowering.Realizes.block`: a made nonterminal with its rules.
* `Lowering.bodiesOf_realizes`: the rule bodies of an expression stand for it.
-/

namespace Mixfix

open scoped Computability

/-! ### Names -/

/-- The names that a user may write: no made nonterminal has one, nor has the augmented start
symbol. -/
def plainNames : Set String := {name | name ≠ augmentedStart ∧ '~' ∉ name.toList}

/-- The name of a made nonterminal. -/
def madeName (base : String) (n : Nat) : String := s!"{base}~{n}"

/-- The plain names, and those of the nonterminals made with numbers up to `k`. -/
def namesWithin (k : Nat) : Set String :=
  {name | name ∈ plainNames ∨ ∃ base ∈ plainNames, ∃ n ≤ k, name = madeName base n}

theorem namesWithin_mono {k k' : Nat} (h : k ≤ k') : namesWithin k ⊆ namesWithin k' := by
  rintro name (hp | ⟨base, hb, n, hn, rfl⟩)
  · exact .inl hp
  · exact .inr ⟨base, hb, n, hn.trans h, rfl⟩

theorem plainNames_subset (k : Nat) : plainNames ⊆ namesWithin k := fun _ => .inl

theorem madeName_mem {base : String} (h : base ∈ plainNames) (k : Nat) :
    madeName base k ∈ namesWithin k :=
  .inr ⟨base, h, k, le_rfl, rfl⟩

theorem toList_madeName (base : String) (n : Nat) :
    (madeName base n).toList = base.toList ++ '~' :: Nat.toDigits 10 n := by
  have h : madeName base n = base ++ "~" ++ Nat.repr n := rfl
  rw [h, Nat.repr_eq_ofList_toDigits]
  simp

theorem tilde_notMem_toDigits (n : Nat) : '~' ∉ Nat.toDigits 10 n := by
  intro h
  have hd : '~'.isDigit = true := Nat.isDigit_of_mem_toDigits (by decide) (by decide) h
  exact absurd hd (by decide)

theorem augmentedStart_notMem (k : Nat) : augmentedStart ∉ namesWithin k := by
  rintro (hp | ⟨base, -, n, -, he⟩)
  · exact hp.1 rfl
  · have hm : '~' ∈ augmentedStart.toList := by
      rw [he, toList_madeName]
      simp
    exact absurd hm (by decide)

/-- A made nonterminal has a new name. -/
theorem madeName_notMem {base : String} (h : base ∈ plainNames) (k : Nat) :
    madeName base (k + 1) ∉ namesWithin k := by
  rintro (hp | ⟨base', -, n, hn, he⟩)
  · apply hp.2
    rw [toList_madeName]
    simp
  · -- Before the first `~` stands the name of the rule, so what comes after it is the number.
    have hl := congrArg String.toList he
    rw [toList_madeName, toList_madeName,
      List.append_cons_inj_of_notMem h.2 (tilde_notMem_toDigits _)] at hl
    have hk := congrArg (Nat.ofDigitChars 10 · 0) hl.2.2
    simp only [Nat.ofDigitChars_ten_toDigits] at hk
    omega

/-- The name is that of an issued nonterminal. -/
def Registry.Knows (r : Registry) (name : String) : Prop :=
  ∃ h, r.find? [name] = some h ∧ h.isNonTerminal

theorem Registry.Extends.knows {r r' : Registry} (he : r.Extends r') {name : String}
    (h : r.Knows name) : r'.Knows name := by
  obtain ⟨n, hf, hn⟩ := h
  exact ⟨n, he.find? hf, hn⟩

namespace Lowering

variable {l l' l'' : Lowering} {R : Registry} {α β : Type}

/-! ### Constructions and their results -/

theorem bind_eq_ok {m : Build α} {f : α → Build β} {b : β} :
    (m >>= f) l = .ok (b, l'') ↔ ∃ a l', m l = .ok (a, l') ∧ f a l' = .ok (b, l'') := by
  constructor
  · intro h
    obtain ⟨⟨a, l'⟩, hm, hf⟩ := except_bind_eq_ok.1 h
    exact ⟨a, l', hm, hf⟩
  · rintro ⟨a, l', hm, hf⟩
    exact except_bind_eq_ok.2 ⟨(a, l'), hm, hf⟩

/-- The lowering with more rules for a nonterminal. -/
def adding (l : Lowering) (lhs : Handle) (bodies : List (List Handle)) : Lowering :=
  { l with rules := l.rules ++ bodies.map (Rule.mk lhs) }

theorem addRules_run (lhs : Handle) (bodies : List (List Handle)) (l : Lowering) :
    addRules lhs bodies l = .ok ((), l.adding lhs bodies) := by
  induction bodies generalizing l with
  | nil => simp [addRules, adding]; rfl
  | cons body bodies ih =>
    have hstep : addRules lhs (body :: bodies) l = addRules lhs bodies (l.adding lhs [body]) := rfl
    rw [hstep, ih]
    simp [adding]

theorem intern_eq_ok {group : List String} {h : Handle} (hi : intern group l = .ok (h, l')) :
    ∃ registry, l' = { l with registry } ∧ registry.find? group = some h ∧
      l.registry.Extends registry := by
  obtain ⟨⟨h', registry⟩, hr, he⟩ := except_bind_eq_ok.1 hi
  cases he
  exact ⟨registry, rfl, Registry.intern_spec hr⟩

/-- A handle is issued and passes a check. -/
theorem intern_check_eq_ok {group : List String} {check : Handle → Bool} {problem : Problem}
    {h : Handle}
    (hm : (do let h ← intern group; if check h then return h else throw problem : Build Handle) l =
      .ok (h, l')) :
    ∃ registry, l' = { l with registry } ∧ registry.find? group = some h ∧
      l.registry.Extends registry ∧ check h := by
  obtain ⟨h', l₁, hi, hm⟩ := bind_eq_ok.1 hm
  obtain ⟨registry, rfl, hf, he⟩ := intern_eq_ok hi
  split at hm
  · next hcheck =>
    cases hm
    exact ⟨registry, rfl, hf, he, hcheck⟩
  · cases hm

theorem nonTerminal_eq_ok {name : String} {h : Handle} (hm : nonTerminal name l = .ok (h, l')) :
    ∃ registry, l' = { l with registry } ∧ registry.find? [name] = some h ∧
      l.registry.Extends registry ∧ h.isNonTerminal :=
  intern_check_eq_ok hm

theorem terminal_eq_ok {group : List String} {h : Handle} (hm : terminal group l = .ok (h, l')) :
    ∃ registry, l' = { l with registry } ∧ registry.find? group = some h ∧
      l.registry.Extends registry ∧ h.isTerminal :=
  intern_check_eq_ok hm

theorem fresh_eq_ok {n : Handle} (hm : fresh l = .ok (n, l')) :
    ∃ registry kinds, l' = { l with registry, kinds, made := l.made + 1 } ∧
      registry.find? [madeName l.current (l.made + 1)] = some n ∧
      l.registry.Extends registry ∧ n.isNonTerminal := by
  obtain ⟨⟨⟩, l₁, hcount, hm⟩ := bind_eq_ok.1 hm
  cases hcount
  obtain ⟨l₂, l₃, hget, hm⟩ := bind_eq_ok.1 hm
  cases hget
  obtain ⟨h, l₄, hn, hm⟩ := bind_eq_ok.1 hm
  obtain ⟨registry, rfl, hf, he, hn⟩ := nonTerminal_eq_ok hn
  cases hm
  exact ⟨registry, _, rfl, hf, he, hn⟩

/-! ### What is said of every construction -/

/-- Nothing is taken back. -/
structure Grows (l l' : Lowering) : Prop where
  registry : l.registry.Extends l'.registry
  rules : l.rules ⊆ l'.rules
  made : l.made ≤ l'.made

theorem Grows.trans (h : l.Grows l') (h' : l'.Grows l'') : l.Grows l'' :=
  ⟨h.registry.trans h'.registry, List.Subset.trans h.rules h'.rules, h.made.trans h'.made⟩

/-- The rules are about plain names and nonterminals made so far, and so are the names of the
nonterminals that are made next. Handles are read in a registry with all symbols. -/
structure Tidy (R : Registry) (l : Lowering) : Prop where
  current : l.current ∈ plainNames
  dependsOn : DependsOn (fun ρ => R.Satisfied ρ l.rules) (namesWithin l.made)
  issued : ∀ rule ∈ l.rules, ∃ name, R.find? [name] = some rule.lhs ∧ rule.lhs.isNonTerminal

/-- The symbols made by a construction stand for the expression: `value` is what they denote. -/
structure Realized (R : Registry) (e : Expr) (l l' : Lowering) (value : (String → Words) → Words) :
    Prop where
  tidy : l'.Tidy R
  dependsOn : DependsOn value (namesWithin l'.made)
  covers : ∀ ρ, R.Satisfied ρ l'.rules → e.denote ρ ≤ value ρ
  solvable : ∀ ρ₀ ρ, Set.EqOn ρ ρ₀ plainNames → R.Satisfied ρ l.rules →
    ∃ ρ', Set.EqOn ρ' ρ (namesWithin l.made) ∧ R.Satisfied ρ' l'.rules ∧ value ρ' = e.denote ρ₀

/-- A construction only adds, knows the nonterminals of the expression afterwards, and gives
symbols that stand for it. -/
structure Realizes (m : Build α) (e : Expr) (value : Registry → (String → Words) → α → Words) :
    Prop where
  grows : ∀ {l a l'}, m l = .ok (a, l') → l.Grows l'
  knows : ∀ {l a l'}, m l = .ok (a, l') → ∀ name ∈ e.names, l'.registry.Knows name
  realized : ∀ {l a l' R}, m l = .ok (a, l') → l'.registry.Extends R →
    (∀ name ∈ e.names, name ∈ plainNames) → l.Tidy R → Realized R e l l' fun ρ => value R ρ a

/-- Issuing handles leaves everything else as it is. -/
theorem Tidy.of_registry {registry : Registry} (h : l.Tidy R) : Tidy R { l with registry } :=
  ⟨h.current, h.dependsOn, h.issued⟩

/-- A nonterminal has the words that its name is given. -/
theorem dependsOn_words {name : String} {h : Handle} (hf : R.find? [name] = some h)
    (hn : h.isNonTerminal) {names : Set String} (hm : name ∈ names) :
    DependsOn (fun ρ => R.words ρ h) names := by
  intro ρ ρ' heq
  simp only [Registry.words_nonTerminal hf hn]
  exact heq name hm

theorem nonTerminal_realizes (name : String) :
    Realizes (nonTerminal name) (.nonTerminal name) Registry.words where
  grows hm := by
    obtain ⟨registry, rfl, -, he, -⟩ := nonTerminal_eq_ok hm
    exact ⟨he, List.Subset.refl _, le_rfl⟩
  knows hm := by
    obtain ⟨registry, rfl, hf, -, hn⟩ := nonTerminal_eq_ok hm
    simpa [Expr.names] using ⟨_, hf, hn⟩
  realized {l h l' R} hm hR hplain htidy := by
    obtain ⟨registry, rfl, hf, -, hn⟩ := nonTerminal_eq_ok hm
    have hp : name ∈ plainNames := hplain name (List.mem_singleton_self name)
    have hw : ∀ ρ, R.words ρ h = ρ name := fun ρ => Registry.words_nonTerminal (hR.find? hf) hn
    exact
      { tidy := htidy.of_registry
        dependsOn := dependsOn_words (hR.find? hf) hn (plainNames_subset _ hp)
        covers := fun ρ _ => (hw ρ).ge
        solvable := by
          intro ρ₀ ρ heq hs
          exact ⟨ρ, fun _ _ => rfl, hs, (hw ρ).trans (heq hp)⟩ }

theorem terminal_realizes (group : List String) :
    Realizes (terminal group) (.terminal group) Registry.words where
  grows hm := by
    obtain ⟨registry, rfl, -, he, -⟩ := terminal_eq_ok hm
    exact ⟨he, List.Subset.refl _, le_rfl⟩
  knows _ := by simp [Expr.names]
  realized {l h l' R} hm hR _ htidy := by
    obtain ⟨registry, rfl, hf, -, ht⟩ := terminal_eq_ok hm
    have hw : ∀ ρ, R.words ρ h = {[group]} := fun ρ => Registry.words_terminal (hR.find? hf) ht
    exact
      { tidy := htidy.of_registry
        dependsOn := fun ρ ρ' _ => (hw ρ).trans (hw ρ').symm
        covers := fun ρ _ => (hw ρ).ge
        solvable := by
          intro ρ₀ ρ _ hs
          exact ⟨ρ, fun _ _ => rfl, hs, hw ρ⟩ }

namespace Realizes

variable {γ : Type} {e e₁ e₂ : Expr} {value : Registry → (String → Words) → α → Words}
  {value₂ : Registry → (String → Words) → β → Words}

/-- The result may be put in another form that denotes the same. -/
theorem map {m : Build α} (h : Realizes m e value) (f : α → β)
    (hv : ∀ R ρ a, value₂ R ρ (f a) = value R ρ a) :
    Realizes (do return f (← m)) e value₂ where
  grows hm := by
    obtain ⟨a, l₁, hm, hp⟩ := bind_eq_ok.1 hm
    cases hp
    exact h.grows hm
  knows hm := by
    obtain ⟨a, l₁, hm, hp⟩ := bind_eq_ok.1 hm
    cases hp
    exact h.knows hm
  realized hm hR hplain htidy := by
    obtain ⟨a, l₁, hm, hp⟩ := bind_eq_ok.1 hm
    cases hp
    simpa only [hv] using h.realized hm hR hplain htidy

/-- A result that is there from the beginning. -/
theorem pure {a : α} (w : Words) (hv : ∀ R ρ, value R ρ a = w) (hd : ∀ ρ, e.denote ρ = w)
    (hn : e.names = []) : Realizes (Pure.pure a) e value where
  grows hm := by
    cases hm
    exact ⟨.refl _, List.Subset.refl _, le_rfl⟩
  knows hm := by simp [hn]
  realized hm hR _ htidy := by
    cases hm
    simp only [hv]
    exact
      { tidy := htidy
        dependsOn := fun _ _ _ => rfl
        covers := fun ρ _ => (hd ρ).le
        solvable := fun ρ₀ ρ _ hs => ⟨ρ, fun _ _ => rfl, hs, (hd ρ₀).symm⟩ }

/-- One construction after the other, for an expression made of both. -/
theorem pair {m₁ : Build α} {m₂ : Build β} (h₁ : Realizes m₁ e₁ value) (h₂ : Realizes m₂ e₂ value₂)
    (f : α → β → γ) (op : Words → Words → Words)
    {value₃ : Registry → (String → Words) → γ → Words}
    (hop : ∀ {u u' v v' : Words}, u ≤ u' → v ≤ v' → op u v ≤ op u' v')
    (hv : ∀ R ρ a b, value₃ R ρ (f a b) = op (value R ρ a) (value₂ R ρ b))
    (hd : ∀ ρ, e.denote ρ = op (e₁.denote ρ) (e₂.denote ρ))
    (hn : ∀ name, name ∈ e.names ↔ name ∈ e₁.names ∨ name ∈ e₂.names) :
    Realizes (do let a ← m₁; return f a (← m₂)) e value₃ where
  grows hm := by
    obtain ⟨a, l₁, hm₁, hm⟩ := bind_eq_ok.1 hm
    obtain ⟨b, l₂, hm₂, hp⟩ := bind_eq_ok.1 hm
    cases hp
    exact (h₁.grows hm₁).trans (h₂.grows hm₂)
  knows hm name hname := by
    obtain ⟨a, l₁, hm₁, hm⟩ := bind_eq_ok.1 hm
    obtain ⟨b, l₂, hm₂, hp⟩ := bind_eq_ok.1 hm
    cases hp
    rcases (hn name).1 hname with h | h
    · exact (h₂.grows hm₂).registry.knows (h₁.knows hm₁ name h)
    · exact h₂.knows hm₂ name h
  realized {l c l₂ R} hm hR hplain htidy := by
    obtain ⟨a, l₁, hm₁, hm⟩ := bind_eq_ok.1 hm
    obtain ⟨b, l₂, hm₂, hp⟩ := bind_eq_ok.1 hm
    cases hp
    have hgrow := h₂.grows hm₂
    have r₁ := h₁.realized hm₁ (hgrow.registry.trans hR)
      (fun name h => hplain name ((hn name).2 (.inl h))) htidy
    have r₂ := h₂.realized hm₂ hR (fun name h => hplain name ((hn name).2 (.inr h))) r₁.tidy
    exact
      { tidy := r₂.tidy
        dependsOn := by
          intro ρ ρ' heq
          have ha := r₁.dependsOn.mono (namesWithin_mono hgrow.made) heq
          have hb := r₂.dependsOn heq
          simp only [hv] at ha hb ⊢
          rw [ha, hb]
        covers := by
          intro ρ hs
          have hs₁ : R.Satisfied ρ l₁.rules := fun rule hr => hs rule (hgrow.rules hr)
          rw [hd, hv]
          exact hop (r₁.covers ρ hs₁) (r₂.covers ρ hs)
        solvable := by
          intro ρ₀ ρ heq hs
          obtain ⟨ρ₁, heq₁, hs₁, hv₁⟩ := r₁.solvable ρ₀ ρ heq hs
          have hplain₁ : Set.EqOn ρ₁ ρ₀ plainNames := (heq₁.mono (plainNames_subset _)).trans heq
          obtain ⟨ρ₂, heq₂, hs₂, hv₂⟩ := r₂.solvable ρ₀ ρ₁ hplain₁ hs₁
          -- What the first construction gave keeps its words while the second one is interpreted.
          have hkeep := r₁.dependsOn heq₂
          refine ⟨ρ₂, (heq₂.mono (namesWithin_mono (h₁.grows hm₁).made)).trans heq₁, hs₂, ?_⟩
          simp only [hv] at hv₁ hv₂ hkeep ⊢
          rw [hd, hkeep, hv₁, hv₂] }

/-- One more body for one more alternative. -/
theorem alternative {m : Build α} {es : List Expr} {rest : Build (List (List Handle))}
    (h : Realizes m e value) (hs : Realizes rest (.alt es) Registry.bodiesWords)
    (f : α → List Handle) (hv : ∀ R ρ a, Registry.rowWords R ρ (f a) = value R ρ a) :
    Realizes (do let a ← m; return f a :: (← rest)) (.alt (e :: es)) Registry.bodiesWords :=
  h.pair hs (fun a bodies => f a :: bodies) (· + ·) add_le_add (by simp [hv]) (fun _ => rfl)
    (by simp [Expr.names, Expr.namesAll])

end Realizes

/-! ### A made nonterminal with its rules -/

/-- Rules for a new nonterminal: some of its own, and some made from the given bodies. -/
def block (pre : Handle → List (List Handle))
    (post : Handle → List (List Handle) → List (List Handle))
    (bodies : Build (List (List Handle))) : Build Handle := do
  let n ← fresh
  addRules n (pre n)
  addRules n (post n (← bodies))
  return n

theorem choiceOf_eq (bodies : Build (List (List Handle))) :
    choiceOf bodies = block (fun _ => []) (fun _ bs => bs) bodies := by
  simp [choiceOf, block, addRules]

theorem optOf_eq (bodies : Build (List (List Handle))) :
    optOf bodies = block (fun _ => []) (fun _ bs => bs ++ [[]]) bodies := by
  simp [optOf, choiceOf, block, addRules]

theorem starOf_eq (bodies : Build (List (List Handle))) :
    starOf bodies = block (fun _ => [[]]) (fun n bs => bs.map (· ++ [n])) bodies := by
  simp [starOf, block, addRules]

theorem plusOf_eq (bodies : Build (List (List Handle))) :
    plusOf bodies =
      choiceOf (do let rest ← starOf bodies; return (← bodies).map (· ++ [rest])) := by
  simp [plusOf, choiceOf]

theorem satisfied_adding {ρ : String → Words} {lhs : Handle} {bodies : List (List Handle)} :
    R.Satisfied ρ (l.adding lhs bodies).rules ↔
      R.Satisfied ρ l.rules ∧ R.bodiesWords ρ bodies ≤ R.words ρ lhs := by
  rw [adding, Registry.satisfied_append, Registry.satisfied_map]

theorem Grows.adding (h : l.Grows l') (lhs : Handle) (bodies : List (List Handle)) :
    l.Grows (l'.adding lhs bodies) :=
  ⟨h.registry, List.Subset.trans h.rules (List.subset_append_left _ _), h.made⟩

/-- Rules may be added to a nonterminal of the registry. -/
theorem Tidy.adding (h : l.Tidy R) {name : String} {lhs : Handle} (hf : R.find? [name] = some lhs)
    (hn : lhs.isNonTerminal) (hname : name ∈ namesWithin l.made) {bodies : List (List Handle)}
    (hb : DependsOn (fun ρ => R.bodiesWords ρ bodies) (namesWithin l.made)) :
    (l.adding lhs bodies).Tidy R where
  current := h.current
  dependsOn := by
    intro ρ ρ' heq
    have hrules := h.dependsOn heq
    have hbodies := hb heq
    have hlhs := dependsOn_words hf hn hname heq
    simp only [satisfied_adding] at hrules hbodies hlhs ⊢
    rw [hrules, hbodies, hlhs]
  issued := by
    intro rule hr
    rcases List.mem_append.1 hr with hr | hr
    · exact h.issued rule hr
    · obtain ⟨body, -, rfl⟩ := List.mem_map.1 hr
      exact ⟨name, hf, hn⟩

/-- The next nonterminal to be made may have any words: no rule made before mentions it. -/
theorem Tidy.assign (h : l.Tidy R) {n : Handle}
    (hf : R.find? [madeName l.current (l.made + 1)] = some n) (hn : n.isNonTerminal) (w : Words)
    {ρ : String → Words} (hs : R.Satisfied ρ l.rules) :
    ∃ ρ', Set.EqOn ρ' ρ (namesWithin l.made) ∧ R.words ρ' n = w ∧ R.Satisfied ρ' l.rules := by
  have heq : Set.EqOn (Function.update ρ (madeName l.current (l.made + 1)) w) ρ
      (namesWithin l.made) := by
    intro name hname
    refine Function.update_of_ne ?_ _ _
    rintro rfl
    exact madeName_notMem h.current l.made hname
  refine ⟨_, heq, ?_, (h.dependsOn heq).mpr hs⟩
  rw [Registry.words_nonTerminal hf hn, Function.update_self]

theorem block_eq_ok {pre : Handle → List (List Handle)}
    {post : Handle → List (List Handle) → List (List Handle)}
    {bodies : Build (List (List Handle))} {n : Handle}
    (hm : block pre post bodies l = .ok (n, l')) :
    ∃ l₁ bs l₂, fresh l = .ok (n, l₁) ∧ bodies (l₁.adding n (pre n)) = .ok (bs, l₂) ∧
      l' = l₂.adding n (post n bs) := by
  obtain ⟨n', l₁, hf, hm⟩ := bind_eq_ok.1 hm
  obtain ⟨⟨⟩, l₂, hpre, hm⟩ := bind_eq_ok.1 hm
  rw [addRules_run] at hpre
  cases hpre
  obtain ⟨bs, l₃, hb, hm⟩ := bind_eq_ok.1 hm
  obtain ⟨⟨⟩, l₄, hpost, hm⟩ := bind_eq_ok.1 hm
  rw [addRules_run] at hpost
  cases hpost
  cases hm
  exact ⟨l₁, bs, l₃, hf, hb, rfl⟩

/-- A made nonterminal stands for an expression that is the least solution of its rules. The rules
are given by their words: `before` and `after` are those of the right-hand sides made before and
after the bodies, in terms of the words of the nonterminal and of the bodies. -/
theorem Realizes.block {bodies : Build (List (List Handle))} {e e' : Expr}
    (h : Realizes bodies e Registry.bodiesWords) {pre : Handle → List (List Handle)}
    {post : Handle → List (List Handle) → List (List Handle)} (before : Words → Words)
    (after : Words → Words → Words)
    (hpre : ∀ (R : Registry) ρ n, R.bodiesWords ρ (pre n) = before (R.words ρ n))
    (hpost : ∀ (R : Registry) ρ n bs,
      R.bodiesWords ρ (post n bs) = after (R.words ρ n) (R.bodiesWords ρ bs))
    (hnames : e'.names = e.names)
    (solves : ∀ ρ, before (e'.denote ρ) ≤ e'.denote ρ ∧
      after (e'.denote ρ) (e.denote ρ) ≤ e'.denote ρ)
    (least : ∀ ρ u v, e.denote ρ ≤ v → before u ≤ u → after u v ≤ u → e'.denote ρ ≤ u) :
    Realizes (Lowering.block pre post bodies) e' Registry.words where
  grows hm := by
    obtain ⟨l₁, bs, l₂, hfresh, hb, rfl⟩ := block_eq_ok hm
    obtain ⟨registry, kinds, rfl, hf, he, hn⟩ := fresh_eq_ok hfresh
    have hgrow := h.grows hb
    exact Grows.adding ⟨he.trans hgrow.registry,
      List.Subset.trans (List.subset_append_left _ _) hgrow.rules,
      (Nat.le_succ _).trans hgrow.made⟩ _ _
  knows hm := by
    obtain ⟨l₁, bs, l₂, -, hb, rfl⟩ := block_eq_ok hm
    rw [hnames]
    show ∀ name ∈ e.names, l₂.registry.Knows name
    exact h.knows hb
  realized {l n l' R} hm hR hplain htidy := by
    obtain ⟨l₁, bs, l₂, hfresh, hb, rfl⟩ := block_eq_ok hm
    obtain ⟨registry, kinds, rfl, hf, he, hn⟩ := fresh_eq_ok hfresh
    have hgrow := h.grows hb
    have hfR : R.find? [madeName l.current (l.made + 1)] = some n :=
      (hgrow.registry.trans hR).find? hf
    have hmem := madeName_mem htidy.current (l.made + 1)
    have hdep := fun {names} => @dependsOn_words R _ n hfR hn names
    have tidy₁ : Tidy R { l with registry, kinds, made := l.made + 1 } :=
      ⟨htidy.current, htidy.dependsOn.mono (namesWithin_mono (Nat.le_succ _)), htidy.issued⟩
    have tidy₂ : Tidy R (adding _ n (pre n)) := tidy₁.adding hfR hn hmem (by
      intro ρ ρ' heq
      simp only [hpre]
      exact congrArg before (hdep hmem heq))
    have r := h.realized hb hR (fun name hname => hplain name (hnames ▸ hname)) tidy₂
    have hmem' := namesWithin_mono hgrow.made hmem
    refine
      { tidy := r.tidy.adding hfR hn hmem' ?_
        dependsOn := hdep hmem'
        covers := ?_
        solvable := ?_ }
    · intro ρ ρ' heq
      simp only [hpost]
      exact congrArg₂ after (hdep hmem' heq) (r.dependsOn heq)
    · intro ρ hs
      obtain ⟨hs₂, hafter⟩ := satisfied_adding.1 hs
      have hbefore := (satisfied_adding.1 fun rule hr => hs₂ rule (hgrow.rules hr)).2
      rw [hpost] at hafter
      rw [hpre] at hbefore
      exact least ρ _ _ (r.covers ρ hs₂) hbefore hafter
    · intro ρ₀ ρ heq hs
      obtain ⟨ρ₁, heq₁, hw₁, hs₁⟩ := htidy.assign hfR hn (e'.denote ρ₀) hs
      have hplain₁ : Set.EqOn ρ₁ ρ₀ plainNames := (heq₁.mono (plainNames_subset _)).trans heq
      obtain ⟨ρ₂, heq₂, hs₂, hv⟩ := r.solvable ρ₀ ρ₁ hplain₁ (satisfied_adding.2 ⟨hs₁, by
        rw [hpre, hw₁]
        exact (solves ρ₀).1⟩)
      -- The nonterminal was made before its bodies, so it keeps its words while they get theirs.
      have hw₂ : R.words ρ₂ n = e'.denote ρ₀ := (hdep hmem heq₂).trans hw₁
      refine ⟨ρ₂, (heq₂.mono (namesWithin_mono (Nat.le_succ _))).trans heq₁,
        satisfied_adding.2 ⟨hs₂, ?_⟩, hw₂⟩
      rw [hpost, hw₂, hv]
      exact (solves ρ₀).2

section

variable {bodies : Build (List (List Handle))} {e : Expr}

theorem choiceOf_realizes (h : Realizes bodies e Registry.bodiesWords) :
    Realizes (choiceOf bodies) e Registry.words := by
  rw [choiceOf_eq]
  refine h.block (fun _ => 0) (fun _ v => v) (by simp) (by simp) rfl ?_ ?_
  · intro ρ
    simp
  · intro ρ u v hv _ hu
    exact hv.trans hu

theorem optOf_realizes (h : Realizes bodies e Registry.bodiesWords) :
    Realizes (optOf bodies) (.opt e) Registry.words := by
  rw [optOf_eq]
  refine h.block (fun _ => 0) (fun _ v => v + 1) (by simp) (by simp) rfl ?_ ?_
  · intro ρ
    simp [Expr.denote]
  · intro ρ u v hv _ hu
    exact (add_le_add_left hv 1).trans hu

theorem starOf_realizes (h : Realizes bodies e Registry.bodiesWords) :
    Realizes (starOf bodies) (.star e) Registry.words := by
  rw [starOf_eq]
  refine h.block (fun _ => 1) (fun u v => v * u) (by simp)
    (fun _ _ n bs => Registry.bodiesWords_map_append bs n) rfl ?_ ?_
  · intro ρ
    exact ⟨one_le_kstar, mul_kstar_le_kstar⟩
  · intro ρ u v hv hone hu
    exact kstar_le_of_mul_le_right hone ((mul_le_mul_left hv u).trans hu)

theorem plusOf_realizes (h : Realizes bodies e Registry.bodiesWords) :
    Realizes (plusOf bodies) (.plus e) Registry.words := by
  rw [plusOf_eq]
  apply choiceOf_realizes
  refine (starOf_realizes h).pair h (fun rest bs => bs.map (· ++ [rest])) (fun u v => v * u)
    ?_ ?_ ?_ ?_
  · intro u u' v v' hu hv
    exact mul_le_mul' hv hu
  · intro R ρ rest bs
    exact Registry.bodiesWords_map_append bs rest
  · intro ρ
    rfl
  · intro name
    simp [Expr.names]

end

mutual

/-- The rule bodies made for an expression stand for it. -/
theorem bodiesOf_realizes : ∀ e : Expr, Realizes (bodiesOf e) e Registry.bodiesWords
  | .alt es => by
    rw [bodiesOf]
    exact sequences_realizes es
  | .seq parts => by
    rw [bodiesOf]
    exact (symbols_realizes parts).map _ (by simp)
  | .nonTerminal name => by
    rw [bodiesOf]
    exact (nonTerminal_realizes name).map _ (by simp)
  | .terminal group => by
    rw [bodiesOf]
    exact (terminal_realizes group).map _ (by simp)
  | .opt body => by
    rw [bodiesOf]
    exact (optOf_realizes (bodiesOf_realizes body)).map _ (by simp)
  | .star body => by
    rw [bodiesOf]
    exact (starOf_realizes (bodiesOf_realizes body)).map _ (by simp)
  | .plus body => by
    rw [bodiesOf]
    exact (plusOf_realizes (bodiesOf_realizes body)).map _ (by simp)

/-- One body for each alternative. -/
theorem sequences_realizes :
    ∀ es : List Expr, Realizes (sequences es) (.alt es) Registry.bodiesWords
  | [] => by
    rw [sequences]
    exact .pure 0 (by simp) (fun _ => rfl) rfl
  | .seq parts :: es => by
    rw [sequences]
    exact (symbols_realizes parts).alternative (sequences_realizes es) (fun body => body) (by simp)
  | .nonTerminal _ :: es | .terminal _ :: es | .alt _ :: es | .opt _ :: es | .star _ :: es
  | .plus _ :: es => by
    simp only [sequences]
    exact (symbolOf_realizes _).alternative (sequences_realizes es) (fun symbol => [symbol])
      (by simp)

/-- One symbol for each part. -/
theorem symbols_realizes : ∀ es : List Expr, Realizes (symbols es) (.seq es) Registry.rowWords
  | [] => by
    rw [symbols]
    exact .pure 1 (by simp) (fun _ => rfl) rfl
  | e :: es => by
    rw [symbols]
    exact (symbolOf_realizes e).pair (symbols_realizes es) List.cons (· * ·) mul_le_mul'
      (by simp) (fun _ => rfl) (by simp [Expr.names, Expr.namesAll])

/-- The symbol made for an expression stands for it. -/
theorem symbolOf_realizes : ∀ e : Expr, Realizes (symbolOf e) e Registry.words
  | .alt es => by
    rw [symbolOf]
    exact choiceOf_realizes (sequences_realizes es)
  | .seq parts => by
    rw [symbolOf]
    exact choiceOf_realizes ((symbols_realizes parts).map _ (by simp))
  | .nonTerminal name => by
    rw [symbolOf]
    exact nonTerminal_realizes name
  | .terminal group => by
    rw [symbolOf]
    exact terminal_realizes group
  | .opt body => by
    rw [symbolOf]
    exact optOf_realizes (bodiesOf_realizes body)
  | .star body => by
    rw [symbolOf]
    exact starOf_realizes (bodiesOf_realizes body)
  | .plus body => by
    rw [symbolOf]
    exact plusOf_realizes (bodiesOf_realizes body)

end

/-! ### All rules -/

/-- The rules made for some rules with expressions have the same solutions, as far as plain names
go. -/
structure Lowered (R : Registry) (rules : List (String × Expr)) (l l' : Lowering) : Prop where
  tidy : l'.Tidy R
  covers : ∀ ρ, R.Satisfied ρ l'.rules → ∀ rule ∈ rules, rule.2.denote ρ ≤ ρ rule.1
  solvable : ∀ ρ₀ ρ, (∀ rule ∈ rules, rule.2.denote ρ₀ ≤ ρ₀ rule.1) → Set.EqOn ρ ρ₀ plainNames →
    R.Satisfied ρ l.rules → ∃ ρ', Set.EqOn ρ' ρ₀ plainNames ∧ R.Satisfied ρ' l'.rules

theorem lowerRule_eq_ok {name : String} {body : Expr} (hm : lowerRule name body l = .ok ((), l')) :
    ∃ lhs registry bs l₁, registry.find? [name] = some lhs ∧ lhs.isNonTerminal ∧
      l.registry.Extends registry ∧
      bodiesOf body.normalize { l with registry, current := name } = .ok (bs, l₁) ∧
      l' = l₁.adding lhs bs := by
  obtain ⟨lhs, l₁, hlhs, hm⟩ := bind_eq_ok.1 hm
  obtain ⟨registry, rfl, hf, he, hn⟩ := nonTerminal_eq_ok hlhs
  obtain ⟨⟨⟩, l₂, hcurrent, hm⟩ := bind_eq_ok.1 hm
  cases hcurrent
  obtain ⟨bs, l₃, hb, hm⟩ := bind_eq_ok.1 hm
  rw [addRules_run] at hm
  cases hm
  exact ⟨lhs, registry, bs, l₃, hf, hn, he, hb, rfl⟩

theorem lowerRule_grows {name : String} {body : Expr} (hm : lowerRule name body l = .ok ((), l')) :
    l.Grows l' := by
  obtain ⟨lhs, registry, bs, l₁, -, -, he, hb, rfl⟩ := lowerRule_eq_ok hm
  have hgrow := (bodiesOf_realizes _).grows hb
  exact Grows.adding ⟨he.trans hgrow.registry, hgrow.rules, hgrow.made⟩ _ _

theorem lowerRule_knows {name : String} {body : Expr} (hm : lowerRule name body l = .ok ((), l')) :
    ∀ n ∈ name :: body.names, l'.registry.Knows n := by
  obtain ⟨lhs, registry, bs, l₁, hf, hn, -, hb, rfl⟩ := lowerRule_eq_ok hm
  intro n hmem
  rcases List.mem_cons.1 hmem with rfl | hmem
  · exact ((bodiesOf_realizes _).grows hb).registry.knows ⟨lhs, hf, hn⟩
  · rw [← Expr.names_normalize] at hmem
    exact (bodiesOf_realizes _).knows hb n hmem

/-- One rule is lowered. -/
theorem lowerRule_lowered {name : String} {body : Expr}
    (hm : lowerRule name body l = .ok ((), l')) (hR : l'.registry.Extends R)
    (hplain : ∀ n ∈ name :: body.names, n ∈ plainNames) (htidy : l.Tidy R) :
    Lowered R [(name, body)] l l' := by
  obtain ⟨lhs, registry, bs, l₁, hf, hn, -, hb, rfl⟩ := lowerRule_eq_ok hm
  have hname : name ∈ plainNames := hplain name List.mem_cons_self
  have hfR : R.find? [name] = some lhs :=
    (((bodiesOf_realizes _).grows hb).registry.trans hR).find? hf
  have tidy₁ : Tidy R { l with registry, current := name } := ⟨hname, htidy.dependsOn, htidy.issued⟩
  have r := (bodiesOf_realizes _).realized hb hR
    (fun n hmem => hplain n (List.mem_cons_of_mem _ (Expr.names_normalize body ▸ hmem))) tidy₁
  have hw : ∀ ρ, R.words ρ lhs = ρ name := fun ρ => Registry.words_nonTerminal hfR hn
  refine ⟨r.tidy.adding hfR hn (plainNames_subset _ hname) r.dependsOn, ?_, ?_⟩
  · intro ρ hs rule hrule
    cases List.mem_singleton.1 hrule
    obtain ⟨hs₁, hadd⟩ := satisfied_adding.1 hs
    calc body.denote ρ
      _ = body.normalize.denote ρ := (Expr.denote_normalize ρ body).symm
      _ ≤ R.bodiesWords ρ bs := r.covers ρ hs₁
      _ ≤ ρ name := hw ρ ▸ hadd
  · intro ρ₀ ρ hsolves heq hs
    obtain ⟨ρ', heq', hs', hv⟩ := r.solvable ρ₀ ρ heq hs
    have hplain' : Set.EqOn ρ' ρ₀ plainNames := (heq'.mono (plainNames_subset _)).trans heq
    refine ⟨ρ', hplain', satisfied_adding.2 ⟨hs', ?_⟩⟩
    calc R.bodiesWords ρ' bs
      _ = body.denote ρ₀ := hv.trans (Expr.denote_normalize ρ₀ body)
      _ ≤ ρ₀ name := hsolves _ (List.mem_singleton_self _)
      _ = R.words ρ' lhs := ((hw ρ').trans (hplain' hname)).symm

/-- The rules one after the other. -/
def lowerAll (rules : List (String × Expr)) : Build Unit :=
  rules.forM fun (name, body) => lowerRule name body

theorem lowerAll_cons_eq_ok {rule : String × Expr} {rules : List (String × Expr)}
    (hm : lowerAll (rule :: rules) l = .ok ((), l'')) :
    ∃ l', lowerRule rule.1 rule.2 l = .ok ((), l') ∧ lowerAll rules l' = .ok ((), l'') := by
  obtain ⟨⟨⟩, l', hrule, hrules⟩ := bind_eq_ok.1 hm
  exact ⟨l', hrule, hrules⟩

theorem lowerAll_grows {rules : List (String × Expr)} (hm : lowerAll rules l = .ok ((), l')) :
    l.Grows l' := by
  induction rules generalizing l with
  | nil =>
    cases hm
    exact ⟨.refl _, List.Subset.refl _, le_rfl⟩
  | cons rule rules ih =>
    obtain ⟨l₁, hrule, hrules⟩ := lowerAll_cons_eq_ok hm
    exact (lowerRule_grows hrule).trans (ih hrules)

theorem lowerAll_knows {rules : List (String × Expr)} (hm : lowerAll rules l = .ok ((), l')) :
    ∀ rule ∈ rules, ∀ n ∈ rule.1 :: rule.2.names, l'.registry.Knows n := by
  induction rules generalizing l with
  | nil => simp
  | cons rule rules ih =>
    obtain ⟨l₁, hrule, hrules⟩ := lowerAll_cons_eq_ok hm
    refine List.forall_mem_cons.2 ⟨?_, ih hrules⟩
    intro n hmem
    exact (lowerAll_grows hrules).registry.knows (lowerRule_knows hrule n hmem)

/-- All rules are lowered. -/
theorem lowerAll_lowered {rules : List (String × Expr)} (hm : lowerAll rules l = .ok ((), l'))
    (hR : l'.registry.Extends R)
    (hplain : ∀ rule ∈ rules, ∀ n ∈ rule.1 :: rule.2.names, n ∈ plainNames) (htidy : l.Tidy R) :
    Lowered R rules l l' := by
  induction rules generalizing l with
  | nil =>
    cases hm
    exact ⟨htidy, by simp, fun ρ₀ ρ _ heq hs => ⟨ρ, heq, hs⟩⟩
  | cons rule rules ih =>
    obtain ⟨l₁, hrule, hrules⟩ := lowerAll_cons_eq_ok hm
    obtain ⟨hp, hps⟩ := List.forall_mem_cons.1 hplain
    have hgrow := lowerAll_grows hrules
    have first := lowerRule_lowered hrule (hgrow.registry.trans hR) hp htidy
    have others := ih hrules hps first.tidy
    refine ⟨others.tidy, ?_, ?_⟩
    · intro ρ hs
      have hs₁ : R.Satisfied ρ l₁.rules := fun r hr => hs r (hgrow.rules hr)
      exact List.forall_mem_cons.2
        ⟨first.covers ρ hs₁ rule (List.mem_singleton_self rule), others.covers ρ hs⟩
    · intro ρ₀ ρ hsolves heq hs
      obtain ⟨hone, hall⟩ := List.forall_mem_cons.1 hsolves
      obtain ⟨ρ₁, heq₁, hs₁⟩ := first.solvable ρ₀ ρ (by simpa using hone) heq hs
      exact others.solvable ρ₀ ρ₁ hall heq₁ hs₁

theorem lowerRules_eq_ok {g : ExprGrammar} {start : Handle}
    (hm : lowerRules g l = .ok (start, l')) :
    ∃ registry, registry.find? [g.start] = some start ∧ start.isNonTerminal ∧
      lowerAll g.rules { l with registry } = .ok ((), l') := by
  obtain ⟨start', l₁, hstart, hm⟩ := bind_eq_ok.1 hm
  obtain ⟨registry, rfl, hf, -, hn⟩ := nonTerminal_eq_ok hstart
  obtain ⟨⟨⟩, l₂, hrules, hm⟩ := bind_eq_ok.1 hm
  cases hm
  exact ⟨registry, hf, hn, hrules⟩

end Lowering

end Mixfix
