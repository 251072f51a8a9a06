import Mixfix.Proofs.Grammar.Totality
import Mixfix.Table

/-!
# Renaming nonterminals

The names of nonterminals only tell them apart.  Lowering a flat grammar under other names gives the
same rules under other names: the handles are those of before, and so are the states and the plans,
which know handles only.

* `Renaming`: other names, and different ones for different nonterminals.
* `Lowering.Carries`: a construction makes the same handles under other names.
* `ExprGrammar.Complete.lower_rename`: so does lowering a complete grammar.
* `Table.ofGrammar_rename`: the states and plans are the same.
-/

namespace Mixfix

/-- Other names for nonterminals: different ones get different names, and the augmented one keeps
its own. -/
structure Renaming (ρ : String → String) : Prop where
  injective : Function.Injective ρ
  nonTerminal : ∀ {symbol}, isNonTerminalSymbol symbol → isNonTerminalSymbol (ρ symbol)
  other : ∀ {symbol}, ¬ isNonTerminalSymbol symbol → ρ symbol = symbol
  augmented : ρ augmentedStart = augmentedStart

/-! ### Registries -/

namespace Registry

variable {ρ : String → String} {r r' : Registry} {h : Handle}

/-- The registry with other names for its nonterminals. -/
def rename (ρ : String → String) (r : Registry) : Registry :=
  { r with
    nonTerminals := r.nonTerminals.map ρ
    handles := indexed (r.nonTerminals.map ρ) r.terminals
    handles_eq := fun _ => rfl }

theorem idxOf?_map (hρ : Function.Injective ρ) (l : List String) (a : String) :
    (l.map ρ).idxOf? (ρ a) = l.idxOf? a := by
  have heq : (fun b => b == ρ a) ∘ ρ = fun b => b == a := by
    funext b
    rw [Function.comp_apply, Bool.eq_iff_iff, beq_iff_eq, beq_iff_eq, hρ.eq_iff]
  rw [List.idxOf?, List.idxOf?, List.findIdx?_map, heq]

theorem find?_rename (hρ : Renaming ρ) {symbol : String} (hs : isNonTerminalSymbol symbol) :
    (r.rename ρ).find? [ρ symbol] = r.find? [symbol] := by
  rw [find?_nonTerminal hs, find?_nonTerminal (hρ.nonTerminal hs), rename,
    idxOf?_map hρ.injective]

theorem find?_rename_terminal {group : List String} (hg : IsTerminalGroup group) :
    (r.rename ρ).find? group = r.find? group := by
  rw [find?_terminal hg.isNonTerminalGroup, find?_terminal hg.isNonTerminalGroup, rename]

/-- A nonterminal gets the same handle under its new name. -/
theorem intern_rename (hρ : Renaming ρ) {symbol : String} (hs : isNonTerminalSymbol symbol)
    (hi : r.intern [symbol] = .ok (h, r')) :
    (r.rename ρ).intern [ρ symbol] = .ok (h, r'.rename ρ) := by
  cases interns_of_intern hi with
  | found hf => exact intern_of_find? ((find?_rename hρ hs).trans hf)
  | nonTerminal _ hnew =>
    rw [intern_nonTerminal (hρ.nonTerminal hs) ((find?_rename hρ hs).trans hnew)]
    have hpush : (r.rename ρ).pushNonTerminal (ρ symbol) (hρ.nonTerminal hs)
        ((find?_rename hρ hs).trans hnew) = (r.pushNonTerminal symbol hs hnew).rename ρ :=
      eq_of_lists (by simp [pushNonTerminal, rename]) rfl rfl rfl rfl
    rw [hpush, rename, List.length_map]
  | terminal hg =>
    have hupper := hs.symm.trans (hg.2 symbol (List.mem_singleton_self symbol))
    cases hupper

/-- A terminal gets the same handle. -/
theorem intern_rename_terminal {group : List String} (hg : IsTerminalGroup group)
    (hi : r.intern group = .ok (h, r')) : (r.rename ρ).intern group = .ok (h, r'.rename ρ) := by
  cases interns_of_intern hi with
  | found hf => exact intern_of_find? ((find?_rename_terminal hg).trans hf)
  | nonTerminal hs =>
    have hupper := hs.symm.trans (hg.2 _ (List.mem_singleton_self _))
    cases hupper
  | terminal _ hnew =>
    have hpush : (r.rename ρ).pushTerminal group hg ((find?_rename_terminal hg).trans hnew) =
        (r.pushTerminal group hg hnew).rename ρ := eq_of_lists rfl rfl rfl rfl rfl
    rw [intern_terminal hg ((find?_rename_terminal hg).trans hnew), hpush]
    rfl

end Registry

/-! ### Lowering -/

namespace Expr

/-- A symbol, or a flat body, with other names for its nonterminals. -/
def renameSymbol (ρ : String → String) : Expr → Expr
  | .nonTerminal name => .nonTerminal (ρ name)
  | e => e

@[inherit_doc renameSymbol]
def rename (ρ : String → String) : Expr → Expr
  | .seq parts => .seq (parts.map (renameSymbol ρ))
  | .alt es => .alt (es.map (renameSymbol ρ))
  | e => e.renameSymbol ρ

variable {ρ : String → String}

@[simp] theorem renameSymbol_nonTerminal (name : String) :
    renameSymbol ρ (.nonTerminal name) = .nonTerminal (ρ name) := rfl

@[simp] theorem renameSymbol_terminal (group : List String) :
    renameSymbol ρ (.terminal group) = .terminal group := rfl

@[simp] theorem rename_nonTerminal (name : String) :
    rename ρ (.nonTerminal name) = .nonTerminal (ρ name) := rfl

@[simp] theorem rename_terminal (group : List String) :
    rename ρ (.terminal group) = .terminal group := rfl

@[simp] theorem rename_seq (parts : List Expr) :
    rename ρ (.seq parts) = .seq (parts.map (renameSymbol ρ)) := rfl

@[simp] theorem rename_alt (es : List Expr) :
    rename ρ (.alt es) = .alt (es.map (renameSymbol ρ)) := rfl

theorem IsProper.renameSymbol_isSymbol {e : Expr} (h : e.IsProper) :
    (e.renameSymbol ρ).IsSymbol := by
  cases e with
  | nonTerminal name => trivial
  | terminal group => trivial
  | seq _ | alt _ | opt _ | star _ | plus _ => exact h.elim

theorem IsProper.rename_eq {e : Expr} (h : e.IsProper) : e.rename ρ = e.renameSymbol ρ := by
  cases e with
  | nonTerminal name => rfl
  | terminal group => rfl
  | seq _ | alt _ | opt _ | star _ | plus _ => exact h.elim

/-- The normal form of a flat body under other names. -/
theorem normalize_rename {e : Expr} (h : ∀ row ∈ e.rows, ∀ part ∈ row, part.IsProper) :
    (e.rename ρ).normalize = e.normalize.rename ρ := by
  have hsymbols : ∀ {es : List Expr}, (∀ e ∈ es, e.IsProper) →
      ∀ e ∈ es.map (renameSymbol ρ), e.IsSymbol := by
    intro es hes e he
    obtain ⟨e, hmem, rfl⟩ := List.mem_map.1 he
    exact (hes e hmem).renameSymbol_isSymbol
  cases e with
  | nonTerminal name => rw [rename_nonTerminal, normalize, normalize, rename_nonTerminal]
  | terminal group => rw [rename_terminal, normalize, rename_terminal]
  | seq parts =>
    have hparts : ∀ e ∈ parts, e.IsProper := h parts (List.mem_singleton_self parts)
    rw [rename_seq, normalize, normalize, normalizeParts_of_symbols (hsymbols hparts),
      normalizeParts_of_symbols fun e he => (hparts e he).isSymbol]
    match parts, hparts with
    | [], _ => rfl
    | [e], hparts => exact (hparts e (List.mem_singleton_self e)).rename_eq.symm
    | _ :: _ :: _, _ => rfl
  | alt es =>
    have hes : ∀ e ∈ es, e.IsProper := fun e he =>
      h [e] (List.mem_map_of_mem he) e (List.mem_singleton_self e)
    rw [rename_alt, normalize, normalize, normalizeAlternatives_of_symbols (hsymbols hes),
      normalizeAlternatives_of_symbols fun e he => (hes e he).isSymbol]
    match es, hes with
    | [], _ => rfl
    | [e], hes => exact (hes e (List.mem_singleton_self e)).rename_eq.symm
    | _ :: _ :: _, _ => rfl
  | opt body => exact (h _ (List.mem_singleton_self _) _ (List.mem_singleton_self _)).elim
  | star body => exact (h _ (List.mem_singleton_self _) _ (List.mem_singleton_self _)).elim
  | plus body => exact (h _ (List.mem_singleton_self _) _ (List.mem_singleton_self _)).elim

end Expr

namespace Lowering

variable {α β : Type} {ρ : String → String}

/-- The lowering with other names. -/
def rename (ρ : String → String) (l : Lowering) : Lowering :=
  { l with registry := l.registry.rename ρ, current := ρ l.current }

/-- Whatever the first construction makes, the second one makes under other names. -/
def Carries (ρ : String → String) (m m' : Build α) : Prop :=
  ∀ l a l', m l = .ok (a, l') → m' (l.rename ρ) = .ok (a, l'.rename ρ)

theorem Carries.pure (a : α) : Carries ρ (Pure.pure a) (Pure.pure a) := by
  intro l a' l' h
  cases h
  rfl

theorem Carries.bind {m m' : Build α} {f f' : α → Build β} (hm : Carries ρ m m')
    (hf : ∀ a, Carries ρ (f a) (f' a)) : Carries ρ (m >>= f) (m' >>= f') := by
  intro l b l' h
  obtain ⟨a, l₁, ha, hb⟩ := bind_eq_ok.1 h
  exact bind_eq_ok.2 ⟨a, l₁.rename ρ, hm l a l₁ ha, hf a l₁ b l' hb⟩

theorem carries_addRules (lhs : Handle) (bodies : List (List Handle)) :
    Carries ρ (addRules lhs bodies) (addRules lhs bodies) := by
  intro l a l' h
  rw [addRules_run] at h ⊢
  cases h
  rfl

/-- A check of a handle does not read names, unless it fails. -/
theorem carries_check {m m' : Build Handle} (hm : Carries ρ m m') (check : Handle → Bool)
    (problem problem' : Problem) :
    Carries ρ (do let h ← m; if check h then return h else throw problem)
      (do let h ← m'; if check h then return h else throw problem') := by
  refine hm.bind fun h => ?_
  cases check h with
  | true => exact .pure h
  | false => exact fun _ _ _ h => nomatch h

theorem carries_nonTerminal (hρ : Renaming ρ) {name : String} (hname : isNonTerminalSymbol name) :
    Carries ρ (nonTerminal name) (nonTerminal (ρ name)) := by
  refine carries_check (fun l k l' h => ?_) Handle.isNonTerminal _ _
  obtain ⟨⟨k, registry⟩, hi, hk⟩ := except_bind_eq_ok.1 h
  cases hk
  exact except_bind_eq_ok.2 ⟨_, Registry.intern_rename hρ hname hi, rfl⟩

theorem carries_terminal {group : List String} (hg : Registry.IsTerminalGroup group) :
    Carries ρ (terminal group) (terminal group) := by
  refine carries_check (fun l k l' h => ?_) Handle.isTerminal _ _
  obtain ⟨⟨k, registry⟩, hi, hk⟩ := except_bind_eq_ok.1 h
  cases hk
  exact except_bind_eq_ok.2 ⟨_, Registry.intern_rename_terminal hg hi, rfl⟩

section

variable (hρ : Renaming ρ)

include hρ

theorem carries_symbolOf {e : Expr} (he : e.IsProper) :
    Carries ρ (symbolOf e) (symbolOf (e.renameSymbol ρ)) := by
  cases e with
  | nonTerminal name =>
    rw [Expr.renameSymbol_nonTerminal, symbolOf, symbolOf]
    exact carries_nonTerminal hρ he
  | terminal group =>
    rw [Expr.renameSymbol_terminal, symbolOf]
    exact carries_terminal he
  | seq _ | alt _ | opt _ | star _ | plus _ => exact he.elim

theorem carries_symbols {es : List Expr} (hes : ∀ e ∈ es, e.IsProper) :
    Carries ρ (symbols es) (symbols (es.map (Expr.renameSymbol ρ))) := by
  induction es with
  | nil =>
    rw [List.map_nil, symbols]
    exact .pure []
  | cons e es ih =>
    obtain ⟨he, hes⟩ := List.forall_mem_cons.1 hes
    rw [List.map_cons, symbols, symbols]
    exact (carries_symbolOf hρ he).bind fun h => (ih hes).bind fun hs => .pure (h :: hs)

theorem carries_sequences {es : List Expr} (hes : ∀ e ∈ es, e.IsProper) :
    Carries ρ (sequences es) (sequences (es.map (Expr.renameSymbol ρ))) := by
  induction es with
  | nil =>
    rw [List.map_nil, sequences]
    exact .pure []
  | cons e es ih =>
    obtain ⟨he, hes⟩ := List.forall_mem_cons.1 hes
    have hseq : ∀ {e : Expr}, e.IsSymbol → ∀ parts, e ≠ .seq parts := by
      rintro e he parts rfl
      exact he
    rw [List.map_cons, sequences.eq_3 e es (hseq he.isSymbol),
      sequences.eq_3 _ _ (hseq he.renameSymbol_isSymbol)]
    exact (carries_symbolOf hρ he).bind fun h => (ih hes).bind fun bodies => .pure ([h] :: bodies)

theorem carries_bodiesOf {e : Expr} (he : ∀ row ∈ e.rows, ∀ part ∈ row, part.IsProper) :
    Carries ρ (bodiesOf e) (bodiesOf (e.rename ρ)) := by
  cases e with
  | alt es =>
    rw [Expr.rename_alt, bodiesOf, bodiesOf]
    refine carries_sequences hρ fun e hmem => ?_
    exact he [e] (List.mem_map_of_mem hmem) e (List.mem_singleton_self e)
  | seq parts =>
    rw [Expr.rename_seq, bodiesOf, bodiesOf]
    exact (carries_symbols hρ (he parts (List.mem_singleton_self parts))).bind fun hs => .pure [hs]
  | nonTerminal name =>
    rw [Expr.rename_nonTerminal, bodiesOf, bodiesOf]
    exact (carries_nonTerminal hρ (he _ (List.mem_singleton_self _) _
      (List.mem_singleton_self _))).bind fun h => .pure [[h]]
  | terminal group =>
    rw [Expr.rename_terminal, bodiesOf]
    exact (carries_terminal (he _ (List.mem_singleton_self _) _
      (List.mem_singleton_self _))).bind fun h => .pure [[h]]
  | opt body => exact (he _ (List.mem_singleton_self _) _ (List.mem_singleton_self _)).elim
  | star body => exact (he _ (List.mem_singleton_self _) _ (List.mem_singleton_self _)).elim
  | plus body => exact (he _ (List.mem_singleton_self _) _ (List.mem_singleton_self _)).elim

theorem carries_lowerRule {name : String} {body : Expr} (hname : isNonTerminalSymbol name)
    (hbody : ∀ row ∈ body.rows, ∀ part ∈ row, part.IsProper) :
    Carries ρ (lowerRule name body) (lowerRule (ρ name) (body.rename ρ)) := by
  have hflat : body.IsFlat := fun row hrow part hpart => (hbody row hrow part hpart).isSymbol
  have hcurrent : Carries ρ (modify fun l => { l with current := name })
      (modify fun l => { l with current := ρ name }) := by
    intro l a l' h
    cases h
    rfl
  refine (carries_nonTerminal hρ hname).bind fun lhs => hcurrent.bind fun _ => ?_
  rw [Expr.normalize_rename hbody]
  refine Carries.bind (carries_bodiesOf hρ ?_) fun bodies => carries_addRules lhs bodies
  rw [hflat.rows_normalize]
  exact hbody

/-- The rules of a flat grammar are lowered under other names. -/
theorem carries_lowerAll {rules : List (String × Expr)}
    (h : ∀ rule ∈ rules, isNonTerminalSymbol rule.1 ∧
      ∀ row ∈ rule.2.rows, ∀ part ∈ row, part.IsProper) :
    Carries ρ (lowerAll rules)
      (lowerAll (rules.map fun (name, body) => (ρ name, body.rename ρ))) := by
  induction rules with
  | nil => exact .pure ()
  | cons rule rules ih =>
    obtain ⟨hrule, hrules⟩ := List.forall_mem_cons.1 h
    exact (carries_lowerRule hρ hrule.1 hrule.2).bind fun _ => ih hrules

end

end Lowering

namespace Registry

variable {ρ : String → String} {r r' : Registry}

/-- A declaration that succeeds does not read names. -/
theorem declareDistinct_rename {group : List Handle} (h : r.declareDistinct group = .ok r') :
    (r.rename ρ).declareDistinct group = .ok (r'.rename ρ) := by
  obtain ⟨hgroup, rfl⟩ := declareDistinct_eq_ok.1 h
  exact declareDistinct_eq_ok.2 ⟨hgroup, eq_of_lists rfl rfl rfl rfl rfl⟩

theorem pushPair_rename (r : Registry) (t u : Handle) :
    (r.pushPair t u).rename ρ = (r.rename ρ).pushPair t u := by
  have hknown : (r.rename ρ).nonEmptyOf t = r.nonEmptyOf t := rfl
  unfold pushPair
  rw [hknown]
  split <;> rfl

theorem declareEmptyPair_rename {t u : Handle} (h : r.declareEmptyPair t u = .ok r') :
    (r.rename ρ).declareEmptyPair t u = .ok (r'.rename ρ) := by
  obtain ⟨ht, hu, hnone, rfl⟩ := declareEmptyPair_eq_ok.1 h
  -- What may object to the pair knows handles only.
  exact declareEmptyPair_eq_ok.2 ⟨ht, hu, hnone, pushPair_rename r t u⟩

end Registry

namespace ExprGrammar

variable {ρ : String → String} {g : ExprGrammar} {r r' : Registry}

/-! ### Declarations -/

theorem internAll_rename {groups : List (List String)}
    (hgroups : ∀ group ∈ groups, Registry.IsTerminalGroup group) {handles : List Handle}
    (h : internAll r groups = .ok (handles, r')) :
    internAll (r.rename ρ) groups = .ok (handles, r'.rename ρ) := by
  induction groups generalizing r handles with
  | nil =>
    cases h
    rfl
  | cons group groups ih =>
    obtain ⟨hgroup, hgroups⟩ := List.forall_mem_cons.1 hgroups
    obtain ⟨⟨handle, r₁⟩, hi, h⟩ := except_bind_eq_ok.1 h
    obtain ⟨⟨handles', r₂⟩, hall, h⟩ := except_bind_eq_ok.1 h
    cases h
    exact except_bind_eq_ok.2 ⟨_, Registry.intern_rename_terminal hgroup hi,
      except_bind_eq_ok.2 ⟨_, ih hgroups hall, rfl⟩⟩

theorem declareDistinct_rename {group : List (List String)}
    (hgroup : ∀ symbols ∈ group, Registry.IsTerminalGroup symbols)
    (h : declareDistinct r group = .ok r') :
    declareDistinct (r.rename ρ) group = .ok (r'.rename ρ) := by
  obtain ⟨⟨handles, r₁⟩, hall, h⟩ := except_bind_eq_ok.1 h
  have hall' := internAll_rename (ρ := ρ) hgroup (except_lift_problem_eq_ok.1 hall)
  exact except_bind_eq_ok.2
    ⟨_, except_lift_problem_eq_ok.2 hall', Registry.declareDistinct_rename h⟩

theorem declareEmptyPair_rename {pair : List String × List String}
    (h₁ : Registry.IsTerminalGroup pair.1) (h₂ : Registry.IsTerminalGroup pair.2)
    (h : declareEmptyPair r pair = .ok r') :
    declareEmptyPair (r.rename ρ) pair = .ok (r'.rename ρ) := by
  obtain ⟨⟨empty, r₁⟩, hempty, h⟩ := except_bind_eq_ok.1 h
  obtain ⟨⟨nonEmpty, r₂⟩, hnonEmpty, h⟩ := except_bind_eq_ok.1 h
  have hempty' := Registry.intern_rename_terminal (ρ := ρ) h₁ (except_lift_problem_eq_ok.1 hempty)
  have hnonEmpty' :=
    Registry.intern_rename_terminal (ρ := ρ) h₂ (except_lift_problem_eq_ok.1 hnonEmpty)
  refine except_bind_eq_ok.2 ⟨_, except_lift_problem_eq_ok.2 hempty', ?_⟩
  exact except_bind_eq_ok.2 ⟨_, except_lift_problem_eq_ok.2 hnonEmpty',
    Registry.declareEmptyPair_rename h⟩

theorem internKinds_rename (hρ : Renaming ρ) {kinds : List (String × Kind)}
    (hkinds : ∀ kind ∈ kinds, isNonTerminalSymbol kind.1) {handles : List (Handle × Kind)}
    (h : internKinds r kinds = .ok (handles, r')) :
    internKinds (r.rename ρ) (kinds.map fun (name, kind) => (ρ name, kind)) =
      .ok (handles, r'.rename ρ) := by
  induction kinds generalizing r handles with
  | nil =>
    cases h
    rfl
  | cons kind kinds ih =>
    obtain ⟨hkind, hkinds⟩ := List.forall_mem_cons.1 hkinds
    obtain ⟨⟨handle, r₁⟩, hi, h⟩ := except_bind_eq_ok.1 h
    obtain ⟨⟨handles', r₂⟩, hall, h⟩ := except_bind_eq_ok.1 h
    cases h
    exact except_bind_eq_ok.2 ⟨_, Registry.intern_rename hρ hkind hi,
      except_bind_eq_ok.2 ⟨_, ih hkinds hall, rfl⟩⟩

end ExprGrammar

/-! ### Grammars -/

namespace Grammar

variable {ρ : String → String}

/-- The grammar with other names for its nonterminals. -/
def rename (ρ : String → String) (g : Grammar) : Grammar :=
  { g with registry := g.registry.rename ρ }

theorem ofRules_rename (hρ : Renaming ρ) {registry : Registry} {start : Handle} {rules : List Rule}
    {kinds : List (Handle × Kind)} {g : Grammar} (h : ofRules registry start rules kinds = .ok g) :
    ofRules (registry.rename ρ) start rules kinds = .ok (g.rename ρ) := by
  unfold ofRules at h ⊢
  by_cases hs : start.isNonTerminal
  · rw [if_neg (by simpa using hs)] at h ⊢
    obtain ⟨⟨augmented, registry'⟩, hi, h⟩ := except_bind_eq_ok.1 h
    obtain ⟨⟨⟩, hchecks, h⟩ := except_bind_eq_ok.1 h
    cases h
    have hi' := Registry.intern_rename hρ (by decide) (except_lift_problem_eq_ok.1 hi)
    rw [hρ.augmented] at hi'
    refine except_bind_eq_ok.2 ⟨_, except_lift_problem_eq_ok.2 hi', ?_⟩
    refine except_bind_eq_ok.2 ⟨(), forM_eq_ok.2 fun rule hrule => ?_, rfl⟩
    exact checkRule_eq_ok.2 (checkRule_eq_ok.1 (forM_eq_ok.1 hchecks rule hrule))
  · rw [if_pos (by simpa using hs)] at h
    obtain ⟨_, _, h⟩ := except_bind_eq_ok.1 h
    cases h

end Grammar

namespace ExprGrammar

variable {ρ : String → String} {g : ExprGrammar} {G : Grammar}

/-- The flat grammar with other names for its nonterminals. -/
def rename (ρ : String → String) (g : ExprGrammar) : ExprGrammar :=
  { g with
    start := ρ g.start
    rules := g.rules.map fun (name, body) => (ρ name, body.rename ρ)
    kinds := g.kinds.map fun (name, kind) => (ρ name, kind) }

theorem Complete.declareAll_rename {group : List (List String)}
    {pair : List String × List String} (hg : g.Complete group pair) {r r' : Registry}
    (h : g.declareAll r = .ok r') : (g.rename ρ).declareAll (r.rename ρ) = .ok (r'.rename ρ) := by
  have hlists : (g.rename ρ).distinct = [group] ∧ (g.rename ρ).emptyPairs = [pair] ∧
      (g.rename ρ).finals = [] := ⟨hg.distinct, hg.emptyPairs, hg.finals⟩
  rw [declareAll, hg.distinct, hg.emptyPairs, hg.finals] at h
  obtain ⟨r₁, hgroups, h⟩ := except_bind_eq_ok.1 h
  obtain ⟨_, hgroup, hnone⟩ := except_bind_eq_ok.1 hgroups
  cases hnone
  obtain ⟨r₂, hpairs, h⟩ := except_bind_eq_ok.1 h
  obtain ⟨_, hpair, hnone⟩ := except_bind_eq_ok.1 hpairs
  cases hnone
  cases h
  have hgroup' := declareDistinct_rename (ρ := ρ) hg.group_terminal hgroup
  have hpair' := declareEmptyPair_rename (ρ := ρ) hg.pair_terminal.1 hg.pair_terminal.2 hpair
  rw [declareAll, hlists.1, hlists.2.1, hlists.2.2]
  refine except_bind_eq_ok.2 ⟨r₁.rename ρ, except_bind_eq_ok.2 ⟨_, hgroup', rfl⟩, ?_⟩
  exact except_bind_eq_ok.2 ⟨r'.rename ρ, except_bind_eq_ok.2 ⟨_, hpair', rfl⟩, rfl⟩

/-- **Lowering does not read names.** A complete grammar under other names is lowered to the same
rules, with the same declarations and kinds. -/
theorem Complete.lower_rename {group : List (List String)} {pair : List String × List String}
    (hg : g.Complete group pair) (hkinds : ∀ kind ∈ g.kinds, isNonTerminalSymbol kind.1)
    (hρ : Renaming ρ) (h : g.lower.result = .ok G) :
    (g.rename ρ).lower.result = .ok (G.rename ρ) := by
  obtain ⟨start, l, r, kinds, r', hrules, hdeclare, hintern, hof⟩ := lower_eq_ok h
  obtain ⟨source, hsource, hname, -⟩ := hg.start
  have hstart : isNonTerminalSymbol g.start := hname ▸ hg.named source hsource
  have hcarries : Lowering.Carries ρ (Lowering.lowerRules g) (Lowering.lowerRules (g.rename ρ)) :=
    (Lowering.carries_nonTerminal hρ hstart).bind fun start =>
      (Lowering.carries_lowerAll hρ fun rule hrule =>
        ⟨hg.named rule hrule, hg.proper rule hrule⟩).bind fun _ => .pure start
  have hrules' := hcarries _ _ _ hrules
  have hnothing : Lowering.rename ρ {} = {} := by
    rw [Lowering.rename, hρ.other (by decide)]
    rfl
  rw [hnothing] at hrules'
  refine (Traced.bind_of_ok (Traced.lift_problem_eq_ok.2 hrules') _).trans ?_
  refine (Traced.bind_of_ok (a := r.rename ρ) (hg.declareAll_rename hdeclare) _).trans ?_
  refine (Traced.bind_of_ok
    (Traced.lift_problem_eq_ok.2 (internKinds_rename hρ hkinds hintern)) _).trans ?_
  exact (Traced.bind_of_ok rfl _).trans (Grammar.ofRules_rename hρ hof)

end ExprGrammar

/-! ### Tables -/

section

variable {ρ : String → String} (g : Grammar)

theorem Automaton.Survey.transitions_rename (first : First) (items : ItemSet)
    (symbols : List Handle) (sets : List (ItemSet × Option Handle)) :
    transitions (g.rename ρ) first items symbols sets = transitions g first items symbols sets := by
  induction symbols generalizing sets with
  | nil => rfl
  | cons symbol symbols ih =>
    have hgoto : items.goto (g.rename ρ) first symbol = items.goto g first symbol := rfl
    simp only [transitions, hgoto, ih]

theorem Automaton.Survey.run_rename (first : First) (bound : Nat) (survey : Survey) :
    run (g.rename ρ) first bound survey = run g first bound survey := by
  induction bound generalizing survey with
  | zero => rfl
  | succ bound ih =>
    have hexpected : ∀ items : ItemSet, items.expected (g.rename ρ) = items.expected g :=
      fun _ => rfl
    rw [run, run]
    cases survey.sets[survey.edges.length]? with
    | none => rfl
    | some set =>
      dsimp only
      rw [hexpected, transitions_rename, ih]

/-- The states of a grammar are the same under other names. -/
theorem Automaton.ofGrammar_rename : ofGrammar (g.rename ρ) = ofGrammar g := by
  have hfirst : First.ofGrammar (g.rename ρ) = First.ofGrammar g := rfl
  have hclosure : ∀ first kernel,
      ItemSet.closure (g.rename ρ) first kernel = ItemSet.closure g first kernel := fun _ _ => rfl
  have hcount : itemCount (g.rename ρ) = itemCount g := rfl
  have hactions : State.actionsOf (g.rename ρ) = State.actionsOf g := rfl
  rw [ofGrammar, ofGrammar, hfirst, hclosure, hcount, hactions]
  dsimp only
  rw [Survey.run_rename]

theorem Plan.chooseWithin_rename (r : Registry) (depth : Nat) (cs : List Candidate) :
    chooseWithin (r.rename ρ) depth cs = chooseWithin r depth cs := by
  have hahead : ∀ c, emptyAhead (r.rename ρ) c = emptyAhead r c := fun _ => rfl
  have hsplit : splitEmpty (r.rename ρ) = splitEmpty r := rfl
  have hclasses : ∀ ts, classes (r.rename ρ) ts = classes r ts := fun _ => rfl
  induction depth generalizing cs with
  | zero => cases cs <;> rfl
  | succ depth ih =>
    cases cs with
    | nil => rfl
    | cons c cs =>
      rw [chooseWithin, chooseWithin]
      simp only [hahead, hsplit, hclasses, ih]

/-- The table with other names for the nonterminals of its grammar. -/
def Table.rename (ρ : String → String) (t : Table) : Table :=
  { t with grammar := t.grammar.rename ρ }

/-- **Tables do not depend on names.** States and plans are the same. -/
theorem Table.ofGrammar_rename : ofGrammar (g.rename ρ) = (ofGrammar g).rename ρ := by
  have hplans : ∀ a : Automaton, a.plans (g.rename ρ) = a.plans g := by
    intro a
    refine List.map_congr_left fun state _ => ?_
    have hcandidates : a.candidates (g.rename ρ) state = a.candidates g state := rfl
    rw [Automaton.planOf, Automaton.planOf, hcandidates]
    exact Plan.chooseWithin_rename _ _ _
  rw [ofGrammar, ofGrammar, Automaton.ofGrammar_rename, hplans]
  rfl

end

end Mixfix
