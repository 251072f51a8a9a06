import Mixfix.Proofs.Grammar.Flat

/-!
# Flat grammars that always lower

Lowering may refuse a group of symbols, a pair of terminals, or a nonterminal without a rule. It
refuses nothing in a flat grammar whose symbols are written as what they are, whose nonterminals all
have rules, and which declares one group of terminals and one pair of different ones.

* `Lowering.Runs`: a construction that meets no problem.
* `ExprGrammar.Complete`: nothing to refuse.
* `ExprGrammar.Complete.exists_lower`: such a grammar lowers.
-/

namespace Mixfix

namespace Registry

variable {r r' : Registry}

/-- A single symbol always has a handle, and so has a terminal. -/
theorem exists_intern (r : Registry) {group : List String}
    (h : (∃ symbol, group = [symbol]) ∨ IsTerminalGroup group) :
    ∃ handle r', r.intern group = .ok (handle, r') := by
  cases hi : r.intern group with
  | ok answer => exact ⟨answer.1, answer.2, rfl⟩
  | error problem =>
    rcases h with ⟨symbol, rfl⟩ | h
    · rcases intern_eq_error hi with hnil | ⟨hlength, -⟩
      · cases hnil
      · exact absurd hlength (by simp)
    · rcases intern_eq_error hi with hnil | ⟨-, symbol, hmem, hs⟩
      · exact absurd hnil h.1
      · rw [h.2 symbol hmem] at hs
        cases hs

theorem isTerminal_of_intern {group : List String} (h : IsTerminalGroup group) {handle : Handle}
    (hi : r.intern group = .ok (handle, r')) : handle.isTerminal := by
  have hn := isNonTerminal_of_find? (intern_spec hi).1
  rw [h.isNonTerminalGroup, Handle.isNonTerminal_eq] at hn
  simpa using hn

end Registry

/-- Rules that pass their checks make a grammar. -/
theorem Grammar.exists_ofRules {registry registry' : Registry} {start augmented : Handle}
    {rules : List Rule} {kinds : List (Handle × Kind)} (hs : start.isNonTerminal)
    (hi : registry.internSymbol augmentedStart = .ok (augmented, registry'))
    (hc : ∀ rule ∈ (⟨augmented, [start]⟩ : Rule) :: rules,
      checkRule registry' (⟨augmented, [start]⟩ :: rules) rule = .ok ()) :
    ∃ g, ofRules registry start rules kinds = .ok g := by
  rw [ofRules, if_neg (by simpa using hs)]
  refine except_exists_bind (except_lift_problem_eq_ok.2 hi) ?_
  exact except_exists_bind (forM_eq_ok.2 hc) ⟨_, rfl⟩

/-- A symbol written as what it is: a nonterminal by its name, a terminal by its symbols. -/
def Expr.IsProper : Expr → Prop
  | .nonTerminal name => isNonTerminalSymbol name
  | .terminal group => Registry.IsTerminalGroup group
  | .seq _ | .alt _ | .opt _ | .star _ | .plus _ => False

theorem Expr.IsProper.isSymbol {e : Expr} (h : e.IsProper) : e.IsSymbol := by
  cases e with
  | nonTerminal name => trivial
  | terminal group => trivial
  | seq _ | alt _ | opt _ | star _ | plus _ => exact h

namespace Lowering

variable {α β : Type}

/-! ### Constructions without problems -/

/-- The construction meets no problem, whatever was made before. -/
def Runs (m : Build α) : Prop := ∀ l, ∃ a l', m l = .ok (a, l')

theorem Runs.pure (a : α) : Runs (Pure.pure a) := fun l => ⟨a, l, rfl⟩

theorem Runs.bind {m : Build α} {f : α → Build β} (hm : Runs m) (hf : ∀ a, Runs (f a)) :
    Runs (m >>= f) := by
  intro l
  obtain ⟨a, l₁, ha⟩ := hm l
  obtain ⟨b, l₂, hb⟩ := hf a l₁
  exact ⟨b, l₂, bind_eq_ok.2 ⟨a, l₁, ha, hb⟩⟩

theorem runs_modify (f : Lowering → Lowering) : Runs (modify f) := fun l => ⟨(), f l, rfl⟩

theorem runs_addRules (lhs : Handle) (bodies : List (List Handle)) : Runs (addRules lhs bodies) :=
  fun l => ⟨(), _, addRules_run lhs bodies l⟩

/-- A handle is issued, and every handle of the group passes the check. -/
theorem runs_intern_check {group : List String} {check : Handle → Bool} {problem : Problem}
    (hg : (∃ symbol, group = [symbol]) ∨ Registry.IsTerminalGroup group)
    (hcheck : ∀ {r r' : Registry} {h : Handle}, r.intern group = .ok (h, r') → check h) :
    Runs (do let h ← intern group; if check h then return h else throw problem) := by
  intro l
  obtain ⟨h, registry, hi⟩ := l.registry.exists_intern hg
  refine ⟨h, { l with registry }, bind_eq_ok.2 ⟨h, { l with registry }, ?_, ?_⟩⟩
  · exact except_bind_eq_ok.2 ⟨(h, registry), hi, rfl⟩
  · rw [if_pos (hcheck hi)]
    rfl

theorem runs_nonTerminal {name : String} (h : isNonTerminalSymbol name) :
    Runs (nonTerminal name) :=
  runs_intern_check (.inl ⟨name, rfl⟩) fun hi =>
    (Registry.isNonTerminal_of_find? (Registry.intern_spec hi).1).trans h

theorem runs_terminal {group : List String} (h : Registry.IsTerminalGroup group) :
    Runs (terminal group) :=
  runs_intern_check (.inr h) fun hi => Registry.isTerminal_of_intern h hi

theorem runs_symbolOf {e : Expr} (h : e.IsProper) : Runs (symbolOf e) := by
  cases e with
  | nonTerminal name =>
    rw [symbolOf]
    exact runs_nonTerminal h
  | terminal group =>
    rw [symbolOf]
    exact runs_terminal h
  | seq _ | alt _ | opt _ | star _ | plus _ => exact h.elim

theorem runs_symbols {es : List Expr} (h : ∀ e ∈ es, e.IsProper) : Runs (symbols es) := by
  induction es with
  | nil =>
    rw [symbols]
    exact .pure _
  | cons e es ih =>
    obtain ⟨he, hes⟩ := List.forall_mem_cons.1 h
    rw [symbols]
    exact (runs_symbolOf he).bind fun _ => (ih hes).bind fun _ => .pure _

theorem runs_sequences {es : List Expr} (h : ∀ e ∈ es, e.IsProper) : Runs (sequences es) := by
  induction es with
  | nil =>
    rw [sequences]
    exact .pure _
  | cons e es ih =>
    obtain ⟨he, hes⟩ := List.forall_mem_cons.1 h
    have hseq : ∀ parts, e ≠ .seq parts := by
      rintro parts rfl
      exact he
    rw [sequences.eq_3 e es hseq]
    exact (runs_symbolOf he).bind fun _ => (ih hes).bind fun _ => .pure _

theorem runs_bodiesOf {e : Expr} (h : ∀ row ∈ e.rows, ∀ part ∈ row, part.IsProper) :
    Runs (bodiesOf e) := by
  have hself : e.rows = [[e]] → e.IsProper := fun hrows =>
    h [e] (hrows ▸ List.mem_singleton_self _) e (List.mem_singleton_self e)
  cases e with
  | alt es =>
    rw [bodiesOf]
    exact runs_sequences fun e he => h [e] (List.mem_map_of_mem he) e (List.mem_singleton_self e)
  | seq parts =>
    rw [bodiesOf]
    exact (runs_symbols (h parts (List.mem_singleton_self parts))).bind fun _ => .pure _
  | nonTerminal name =>
    rw [bodiesOf]
    exact (runs_nonTerminal (hself rfl)).bind fun _ => .pure _
  | terminal group =>
    rw [bodiesOf]
    exact (runs_terminal (hself rfl)).bind fun _ => .pure _
  | opt _ | star _ | plus _ => exact (hself rfl).elim

/-- A rule with a proper name and proper rows is lowered. -/
theorem runs_lowerRule {name : String} {body : Expr} (hname : isNonTerminalSymbol name)
    (hbody : ∀ row ∈ body.rows, ∀ part ∈ row, part.IsProper) : Runs (lowerRule name body) := by
  have hflat : body.IsFlat := fun row hrow part hpart => (hbody row hrow part hpart).isSymbol
  have hnormal : ∀ row ∈ body.normalize.rows, ∀ part ∈ row, part.IsProper := by
    rw [hflat.rows_normalize]
    exact hbody
  exact (runs_nonTerminal hname).bind fun _ => (runs_modify _).bind fun _ =>
    (runs_bodiesOf hnormal).bind fun _ => runs_addRules _ _

theorem runs_lowerAll {rules : List (String × Expr)}
    (h : ∀ rule ∈ rules, isNonTerminalSymbol rule.1 ∧
      ∀ row ∈ rule.2.rows, ∀ part ∈ row, part.IsProper) : Runs (lowerAll rules) := by
  induction rules with
  | nil => exact .pure ()
  | cons rule rules ih =>
    obtain ⟨hrule, hrules⟩ := List.forall_mem_cons.1 h
    exact (runs_lowerRule hrule.1 hrule.2).bind fun _ => ih hrules

end Lowering

namespace ExprGrammar

variable {g : ExprGrammar} {r r' : Registry}

/-! ### Declarations -/

theorem exists_internAll {groups : List (List String)}
    (h : ∀ group ∈ groups, Registry.IsTerminalGroup group) (r : Registry) :
    ∃ handles r', internAll r groups = .ok (handles, r') ∧
      ∀ handle ∈ handles, handle.isTerminal := by
  induction groups generalizing r with
  | nil => exact ⟨[], r, rfl, fun _ h => nomatch h⟩
  | cons group groups ih =>
    obtain ⟨hgroup, hgroups⟩ := List.forall_mem_cons.1 h
    obtain ⟨handle, r₁, hi⟩ := r.exists_intern (.inr hgroup)
    obtain ⟨handles, r₂, hall, hterminal⟩ := ih hgroups r₁
    refine ⟨handle :: handles, r₂, ?_, List.forall_mem_cons.2 ⟨?_, hterminal⟩⟩
    · exact except_bind_eq_ok.2 ⟨_, hi, except_bind_eq_ok.2 ⟨_, hall, rfl⟩⟩
    · exact Registry.isTerminal_of_intern hgroup hi

theorem exists_internKinds (r : Registry) (kinds : List (String × Kind)) :
    ∃ handles r', internKinds r kinds = .ok (handles, r') := by
  induction kinds generalizing r with
  | nil => exact ⟨[], r, rfl⟩
  | cons kind kinds ih =>
    obtain ⟨handle, r₁, hi⟩ := r.exists_intern (.inl ⟨kind.1, rfl⟩)
    obtain ⟨handles, r₂, hall⟩ := ih r₁
    exact ⟨_, _, except_bind_eq_ok.2 ⟨_, hi, except_bind_eq_ok.2 ⟨_, hall, rfl⟩⟩⟩

theorem exists_declareDistinct {group : List (List String)}
    (h : ∀ symbols ∈ group, Registry.IsTerminalGroup symbols) (r : Registry) :
    ∃ r', declareDistinct r group = .ok r' := by
  obtain ⟨handles, r₁, hall, hterminal⟩ := exists_internAll h r
  refine except_exists_bind (except_lift_problem_eq_ok.2 hall) ?_
  exact ⟨_, Registry.declareDistinct_eq_ok.2 ⟨hterminal, rfl⟩⟩

/-- Two different terminals can be the first pair. -/
theorem exists_declareEmptyPair {pair : List String × List String}
    (h₁ : Registry.IsTerminalGroup pair.1) (h₂ : Registry.IsTerminalGroup pair.2)
    (hne : pair.1 ≠ pair.2) (hr : r.emptyPairs = []) : ∃ r', declareEmptyPair r pair = .ok r' := by
  obtain ⟨empty, r₁, hempty⟩ := r.exists_intern (.inr h₁)
  obtain ⟨nonEmpty, r₂, hnonEmpty⟩ := r₁.exists_intern (.inr h₂)
  have hissue := Registry.issues_of_intern hnonEmpty
  have hfind₁ := hissue.toExtends.find? (Registry.intern_spec hempty).1
  have hfind₂ := (Registry.intern_spec hnonEmpty).1
  have hpairs : r₂.emptyPairs = [] :=
    ((Registry.issues_of_intern hempty).trans hissue).emptyPairs.trans hr
  have hend : ∀ {group : List String} {h : Handle}, r₂.find? group = some h → h.isEnd = false := by
    intro group h hfind
    rw [Handle.isEnd, decide_eq_false_iff_not]
    intro hid
    obtain rfl : h = .endOfInput := Handle.ext_id hid
    exact Registry.find?_ne_end hfind
  have hother : empty ≠ nonEmpty := by
    rintro rfl
    exact hne (Option.some.inj
      ((Registry.lookup?_of_find? hfind₁).symm.trans (Registry.lookup?_of_find? hfind₂)))
  have hnone : r₂.pairObjection empty nonEmpty = none := by
    simp [Registry.pairObjection, hend hfind₁, hend hfind₂, hother, Registry.nonEmptyOf, hpairs]
  refine except_exists_bind (except_lift_problem_eq_ok.2 hempty) ?_
  refine except_exists_bind (except_lift_problem_eq_ok.2 hnonEmpty) ?_
  exact ⟨_, Registry.declareEmptyPair_eq_ok.2 ⟨Registry.isTerminal_of_intern h₁ hempty,
    Registry.isTerminal_of_intern h₂ hnonEmpty, hnone, rfl⟩⟩

/-! ### Complete grammars -/

/-- The nonterminal has a rule with a row. -/
def Defines (g : ExprGrammar) (name : String) : Prop :=
  ∃ rule ∈ g.rules, rule.1 = name ∧ rule.2.rows ≠ []

/-- A flat grammar with nothing to refuse: its symbols are proper, every nonterminal in use has a
rule, and it declares one group of terminals, one pair of different terminals and no final ones. -/
structure Complete (g : ExprGrammar) (group : List (List String))
    (pair : List String × List String) : Prop where
  named : ∀ rule ∈ g.rules, isNonTerminalSymbol rule.1
  proper : ∀ rule ∈ g.rules, ∀ row ∈ rule.2.rows, ∀ part ∈ row, part.IsProper
  start : g.Defines g.start
  defined : ∀ rule ∈ g.rules, ∀ row ∈ rule.2.rows, ∀ name, .nonTerminal name ∈ row → g.Defines name
  distinct : g.distinct = [group]
  emptyPairs : g.emptyPairs = [pair]
  finals : g.finals = []
  group_terminal : ∀ symbols ∈ group, Registry.IsTerminalGroup symbols
  pair_terminal : Registry.IsTerminalGroup pair.1 ∧ Registry.IsTerminalGroup pair.2
  pair_ne : pair.1 ≠ pair.2

namespace Complete

variable {group : List (List String)} {pair : List String × List String}

theorem isFlat (h : g.Complete group pair) : ∀ rule ∈ g.rules, rule.2.IsFlat :=
  fun rule hrule row hrow part hpart => (h.proper rule hrule row hrow part hpart).isSymbol

theorem exists_declareAll (h : g.Complete group pair) (hr : r.emptyPairs = []) :
    ∃ r', g.declareAll r = .ok r' := by
  obtain ⟨r₁, hdistinct⟩ := exists_declareDistinct h.group_terminal r
  obtain ⟨handles, -, hpairs, -⟩ := declareDistinct_groups hdistinct
  obtain ⟨r₂, hpair⟩ :=
    exists_declareEmptyPair h.pair_terminal.1 h.pair_terminal.2 h.pair_ne (hpairs.trans hr)
  refine ⟨r₂, ?_⟩
  rw [declareAll, h.distinct, h.emptyPairs, h.finals]
  refine except_bind_eq_ok.2 ⟨r₁, except_bind_eq_ok.2 ⟨r₁, hdistinct, rfl⟩, ?_⟩
  exact except_bind_eq_ok.2 ⟨r₂, except_bind_eq_ok.2 ⟨r₂, hpair, rfl⟩, rfl⟩

/-- The rules pass their checks: a nonterminal on the right stands for a name that has a rule. -/
theorem checkRule_eq_ok (h : g.Complete group pair) {l l' : Lowering}
    (hl : Lowering.lowerAll g.rules l = .ok ((), l')) (hempty : l.rules = [])
    (hext : l'.registry.Extends r) {augmented start : Handle} (haug : augmented.isNonTerminal)
    (hstart : r.Stands (.nonTerminal g.start) start) :
    ∀ rule ∈ (⟨augmented, [start]⟩ : Rule) :: l'.rules,
      Grammar.checkRule r (⟨augmented, [start]⟩ :: l'.rules) rule = .ok () := by
  obtain ⟨-, -, new, hnew, hrows, hmade⟩ := Lowering.lowerAll_flat h.isFlat hl
  have hdefined : ∀ {name : String} {k : Handle}, g.Defines name →
      r.Stands (.nonTerminal name) k →
        ∃ rule ∈ (⟨augmented, [start]⟩ : Rule) :: l'.rules, rule.lhs = k := by
    rintro name k ⟨source, hsource, rfl, hne⟩ hk
    obtain ⟨row, hrow⟩ := List.exists_mem_of_ne_nil _ hne
    obtain ⟨rule, hrule, hlhs, -⟩ := hmade source hsource row hrow
    refine ⟨rule, List.mem_cons_of_mem _ (hnew ▸ List.mem_append_right _ hrule), ?_⟩
    exact Option.some.inj ((hext.stands hlhs).1.symm.trans hk.1)
  refine List.forall_mem_cons.2 ⟨Grammar.checkRule_eq_ok.2 ⟨haug, fun s hs _ => ?_⟩, ?_⟩
  · rw [List.mem_singleton.1 hs]
    exact hdefined h.start hstart
  · intro rule hrule
    rw [hnew, hempty] at hrule
    obtain ⟨source, hsource, row, hrow, hlhs, hrhs⟩ :=
      (hrows rule hrule).extends hext (List.Subset.refl _)
    refine Grammar.checkRule_eq_ok.2 ⟨hlhs.2, fun s hs hn => ?_⟩
    obtain ⟨part, hpart, hstands⟩ := exists_of_forall₂ hrhs hs
    cases part with
    | nonTerminal name => exact hdefined (h.defined source hsource row hrow name hpart) hstands
    | terminal symbols =>
      rw [Handle.isNonTerminal_eq, hstands.2] at hn
      cases hn
    | seq _ | alt _ | opt _ | star _ | plus _ => exact hstands.elim

/-- **A complete grammar lowers.** -/
theorem exists_lower (h : g.Complete group pair) : ∃ G, g.lower.result = .ok G := by
  obtain ⟨source, hsource, hname, -⟩ := h.start
  have hstartName : isNonTerminalSymbol g.start := hname ▸ h.named source hsource
  -- The rules, after the start symbol.
  obtain ⟨start, l₁, hstart⟩ := Lowering.runs_nonTerminal hstartName {}
  obtain ⟨r₁, rfl, hissue₁, hfind, hn⟩ := Lowering.issues_of_intern_check hstart
  obtain ⟨⟨⟩, l, hall⟩ := Lowering.runs_lowerAll
    (fun rule hrule => ⟨h.named rule hrule, h.proper rule hrule⟩) { registry := r₁ }
  have hissue := (Lowering.lowerAll_flat h.isFlat hall).1
  have hrules : Lowering.lowerRules g {} = .ok (start, l) :=
    Lowering.bind_eq_ok.2 ⟨start, _, hstart, Lowering.bind_eq_ok.2 ⟨(), l, hall, rfl⟩⟩
  -- The declarations, the kinds and the augmented nonterminal.
  obtain ⟨r₂, hdeclare⟩ := h.exists_declareAll (r := l.registry)
    ((hissue₁.trans hissue).emptyPairs.trans rfl)
  obtain ⟨kinds, r₃, hkinds⟩ := exists_internKinds r₂ g.kinds
  obtain ⟨augmented, r₄, haug⟩ := r₃.exists_intern (.inl ⟨augmentedStart, rfl⟩)
  obtain ⟨hfindAug, hext₃⟩ := Registry.intern_spec haug
  have hext : l.registry.Extends r₄ :=
    ((declareAll_extends hdeclare).trans (internKinds_extends hkinds)).trans hext₃
  have hchecks := h.checkRule_eq_ok hall rfl hext
    ((Registry.isNonTerminal_of_find? hfindAug).trans (by decide))
    ((hissue.toExtends.trans hext).stands (e := .nonTerminal g.start) ⟨hfind, hn⟩)
  refine Traced.exists_bind (Traced.lift_problem_eq_ok.2 hrules) ?_
  refine Traced.exists_bind (a := r₂) hdeclare ?_
  refine Traced.exists_bind (Traced.lift_problem_eq_ok.2 hkinds) ?_
  exact Traced.exists_bind rfl (Grammar.exists_ofRules hn haug hchecks)

end Complete

end ExprGrammar

end Mixfix
