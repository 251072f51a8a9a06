import Mixfix.Proofs.Assembly.Complete
import Mixfix.Proofs.Assembly.Exclusion

/-!
# Assembly always answers

Faulty entries are left out before anything is built, and what remains cannot fail: the grammar is
complete, every state is blamed on nonterminals that exist, and every terminal of the rules is one
that a parser is bound to. So the only problem there is concerns the entry, which may be a category
that nobody declared.

* `Catalogue.exists_acceptCategories`: the known categories are the declared ones.
* `Catalogue.exists_acceptDeclarations`: the accepted declarations are the usable ones.
* `Catalogue.exists_blame`: blame meets no fault.
* `Catalogue.exists_bind`: every terminal gets its parser.
* `Catalogue.assemble_total`: a parser is assembled unless the entry is an unknown category.
-/

namespace Mixfix

/-! ### Steps that succeed -/

theorem Sink.exists_report (sink : Sink) (d : Diagnostic) {ε : Type} :
    ∃ sink', (sink.report d : Traced ε Sink).result = .ok sink' := by
  unfold Sink.report
  split <;> exact ⟨_, rfl⟩

theorem LevelGraph.offerEdge_result (d : LevelGraph String) (a b : String) {ε : Type} :
    (d.offerEdge a b : Traced ε _).result = .ok (d.addEdge a b) := by
  unfold LevelGraph.offerEdge
  dsimp only
  split <;> rfl

namespace Traced

variable {ε α β : Type}

/-- Where every step of a fold succeeds and keeps a fact about what is still to come, the fold
succeeds, and nothing is to come. -/
theorem exists_foldlM_keeping {f : β → α → Traced ε β} {P : List α → β → Prop}
    (hf : ∀ a l b, P (a :: l) b → ∃ b', (f b a).result = .ok b' ∧ P l b') {l : List α} {b : β}
    (hb : P l b) : ∃ b', (l.foldlM f b).result = .ok b' ∧ P [] b' := by
  induction l generalizing b with
  | nil => exact ⟨b, rfl, hb⟩
  | cons a l ih =>
    obtain ⟨b₁, h₁, hb₁⟩ := hf a l b hb
    obtain ⟨b', h', hb'⟩ := ih hb₁
    rw [List.foldlM_cons]
    exact ⟨b', bind_eq_ok.2 ⟨b₁, h₁, h'⟩, hb'⟩

theorem exists_foldlM {f : β → α → Traced ε β} (hf : ∀ b a, ∃ b', (f b a).result = .ok b')
    (l : List α) (b : β) : ∃ b', (l.foldlM f b).result = .ok b' := by
  obtain ⟨b', h, -⟩ := exists_foldlM_keeping (P := fun _ _ => True) (l := l) (b := b)
    (fun a _ b _ => (hf b a).imp fun _ h => ⟨h, trivial⟩) trivial
  exact ⟨b', h⟩

end Traced

/-- Names that stand for terminals can be bound, if they name every terminal of the rules. -/
theorem Table.exists_bind {α : Type} {t : Table} {atEnd : α} {named : List (String × α)}
    (hnamed : ∀ given ∈ named, ∃ b, t.Bound given b)
    (hused : ∀ u ∈ t.grammar.terminals, ∃ given ∈ named, ∀ b, t.Bound given b → b.1 = u) :
    ∃ bound, t.bind atEnd named = .ok bound := by
  have hstep : ∀ before, ∀ given ∈ named, ∃ after, t.bindName before given = .ok after := by
    intro before given hgiven
    obtain ⟨b, hb⟩ := hnamed given hgiven
    exact ⟨b :: before, bindName_eq_ok.2 ⟨b, rfl, hb⟩⟩
  obtain ⟨found, hfold⟩ := exists_foldlM hstep [(.endOfInput, atEnd)]
  obtain ⟨front, rfl, hall⟩ := exists_front_of_foldlM bindName_eq_ok.1 hfold
  rw [bind_eq]
  refine except_exists_bind hfold ?_
  rw [List.find?_eq_none.2]
  · exact ⟨_, rfl⟩
  intro u hu
  obtain ⟨given, hgiven, hb⟩ := hused u hu
  obtain ⟨b, hmem, hbound⟩ := exists_of_forall₂ hall.flip hgiven
  have hsome : ((front ++ [(Handle.endOfInput, atEnd)]).lookup u).isSome :=
    List.lookup_isSome_iff.2
      ⟨b, List.mem_append_left _ (List.mem_reverse.1 hmem), by simp [hb b hbound]⟩
  rw [← Option.not_isSome, hsome]
  exact Bool.false_ne_true

namespace Catalogue

variable {ε : Type}

/-! ### Accepting entries -/

/-- The known categories, with those still to come, are the declared ones. -/
def Covers (c : Catalogue) (rest known : List (String × Option Span)) : Prop :=
  ∀ name, name ∈ known.map (·.1) ∨ name ∈ rest.map (·.1) ↔ name ∈ c.categories.map (·.1)

theorem Covers.skip {c : Catalogue} {rest known : List (String × Option Span)} {name : String}
    {span : Option Span} (h : c.Covers ((name, span) :: rest) known)
    (hname : (known.lookup name).isSome) : c.Covers rest known := by
  obtain ⟨entry, hentry, heq⟩ := List.lookup_isSome_iff.1 hname
  have hmem : name ∈ known.map (·.1) := List.mem_map.2 ⟨entry, hentry, (eq_of_beq heq).symm⟩
  intro other
  rw [← h other, List.map_cons, List.mem_cons]
  constructor
  · rintro (hother | hother)
    · exact .inl hother
    · exact .inr (.inr hother)
  · rintro (hother | rfl | hother)
    · exact .inl hother
    · exact .inl hmem
    · exact .inr hother

theorem Covers.add {c : Catalogue} {rest known : List (String × Option Span)} {name : String}
    {span : Option Span} (h : c.Covers ((name, span) :: rest) known) :
    c.Covers rest (known ++ [(name, span)]) := by
  intro other
  rw [← h other]
  simp [or_assoc]

/-- The known categories are those that are declared. -/
theorem exists_acceptCategories (c : Catalogue) (sink : Sink) :
    ∃ sink' known, (c.acceptCategories sink : Traced ε _).result = .ok (sink', known) ∧
      ∀ name, name ∈ known.map (·.1) ↔ name ∈ c.categories.map (·.1) := by
  have hfold : ∃ state, (c.acceptCategories sink : Traced ε _).result = .ok state ∧
      c.Covers [] state.2 := by
    refine Traced.exists_foldlM_keeping
      (P := fun rest (state : Sink × List (String × Option Span)) => c.Covers rest state.2) ?_ ?_
    · rintro ⟨name, span⟩ rest ⟨sink, known⟩ hcovers
      dsimp only
      split
      · next hname =>
        obtain ⟨sink', hsink⟩ :=
          sink.exists_report (.error span s!"category {name} is already declared")
        exact ⟨(sink', known), Traced.bind_eq_ok.2 ⟨sink', hsink, rfl⟩, hcovers.skip hname⟩
      · exact ⟨(sink, known ++ [(name, span)]), rfl, hcovers.add⟩
    · intro name
      simp
  obtain ⟨⟨sink', known⟩, h, hcovers⟩ := hfold
  exact ⟨sink', known, h, fun name => by simpa using hcovers name⟩

theorem exists_acceptPriority (known : List String) (sink : Sink) (graph : LevelGraph String)
    (p : Priority) :
    ∃ state, (acceptPriority known sink graph p : Traced ε _).result = .ok state := by
  unfold acceptPriority
  split
  · obtain ⟨sink', hsink⟩ := sink.exists_report (ε := ε) _
    exact Traced.exists_bind hsink ⟨_, rfl⟩
  · refine Traced.exists_bind (graph.offerEdge_result p.lower p.higher) ?_
    dsimp only
    split
    · exact ⟨_, rfl⟩
    · obtain ⟨sink', hsink⟩ := sink.exists_report (ε := ε) _
      exact Traced.exists_bind hsink ⟨_, rfl⟩

theorem exists_acceptPriorities (c : Catalogue) (known : List String) (sink : Sink) :
    ∃ state, (c.acceptPriorities known sink : Traced ε _).result = .ok state := by
  refine Traced.exists_foldlM ?_ _ _
  rintro ⟨sink, graph⟩ p
  exact exists_acceptPriority known sink graph p

/-- The declarations that nothing speaks against, with their numbers. -/
def usableOf (known : List String) (declarations : List (Declaration × Nat)) :
    List (Nat × Declaration) :=
  (declarations.filter fun (d, _) => (d.objection known).isNone).map fun (d, i) => (i, d)

/-- All usable declarations of a catalogue. -/
def usable (c : Catalogue) (known : List String) : List (Nat × Declaration) :=
  usableOf known c.declarations.zipIdx

/-- The accepted declarations are the usable ones. -/
theorem exists_acceptDeclarations (c : Catalogue) (known : List String) (sink : Sink) :
    ∃ sink', (c.acceptDeclarations known sink : Traced ε _).result =
      .ok (sink', c.usable known) := by
  have hfold : ∃ state, (c.acceptDeclarations known sink : Traced ε _).result = .ok state ∧
      state.2 ++ usableOf known [] = c.usable known := by
    refine Traced.exists_foldlM_keeping
      (P := fun rest (state : Sink × List (Nat × Declaration)) =>
        state.2 ++ usableOf known rest = c.usable known) ?_ (List.nil_append _)
    rintro ⟨d, i⟩ rest ⟨sink, accepted⟩ hrest
    dsimp only at hrest ⊢
    split
    · next message hobjection =>
      obtain ⟨sink', hsink⟩ := sink.exists_report (.error d.span message) (ε := ε)
      refine ⟨(sink', accepted), Traced.bind_eq_ok.2 ⟨sink', hsink, rfl⟩, ?_⟩
      simpa [usableOf, hobjection] using hrest
    · next hobjection =>
      refine ⟨(sink, accepted ++ [(i, d)]), rfl, ?_⟩
      simpa [usableOf, hobjection] using hrest
  obtain ⟨⟨sink', ds⟩, h, hds⟩ := hfold
  obtain rfl : ds = c.usable known := by simpa [usableOf] using hds
  exact ⟨sink', h⟩

/-- Only an unknown category is refused as an entry. -/
theorem startOf_eq_error {known : List String} {entry : Entry} {problem : Problem} :
    startOf known entry = .error problem ↔
      ∃ name, entry = .category name ∧ name ∉ known ∧ problem = .unknownCategory name := by
  cases entry with
  | any => simp [startOf]
  | category name =>
    by_cases hname : name ∈ known
    · simp [startOf, hname]
    · simp [startOf, hname, eq_comm]

/-! ### The table and its terminals -/

section

variable {entry : Entry} {start : String} {priorities : LevelGraph String}
  {ds : List (Nat × Declaration)} {known : List String} {g : Grammar}

theorem exists_originOf {origins : List (String × String)} {r : Registry} {lhs : Handle}
    (h : (r.lookup? lhs).isSome) : ∃ origin, originOf origins r lhs = .ok origin := by
  obtain ⟨symbols, hsymbols⟩ := Option.isSome_iff_exists.1 h
  have hof : r.symbolsOf lhs = .ok symbols := by rw [Registry.symbolsOf, hsymbols]
  refine except_exists_bind hof ?_
  split <;> exact ⟨_, rfl⟩

/-- Blame meets no fault: the items of a state belong to rules, and the rules to nonterminals. -/
theorem exists_blame (origins : List (String × String)) (hg : g.WellFormed)
    (hissued : ∀ rule ∈ g.rules, (g.registry.lookup? rule.lhs).isSome) :
    ∃ conflicts, blame origins (Table.ofGrammar g) = .ok conflicts := by
  refine (exists_foldlM ?_ []).elim fun blamed hblamed => except_exists_bind hblamed ⟨_, rfl⟩
  rintro blamed ⟨row, state⟩ hrow
  have hmem : row ∈ (Table.ofGrammar g).rows :=
    List.fst_mem_of_mem_zipIdx (List.mem_filter.1 hrow).1
  obtain ⟨i, hi⟩ := List.getElem?_of_mem hmem
  have hs := (Table.eq_of_getElem?_rows hi).1
  have hproper := (Automaton.canonical hg).proper (List.mem_of_getElem? hs)
  refine (exists_mapM ?_).elim fun found hfound => except_exists_bind hfound ⟨_, rfl⟩
  intro item hitem
  obtain ⟨rule, hrule, -⟩ := hproper.dot_le item (List.mem_filter.1 hitem).1
  have hrule' : (Table.ofGrammar g).grammar.rules[item.rule]? = some rule := hrule
  rw [hrule']
  exact exists_originOf (hissued rule (List.mem_of_getElem? hrule))

/-- A terminal is bound by its key. -/
theorem bound_key (hsolid : ∀ text ∈ literalsOf ds, Terminal.Solid text) {t : Terminal}
    (ht : t ∈ Terminal.every (literalsOf ds)) (hne : t ≠ .endOfInput) {table : Table}
    {b : Handle × Terminal} : table.Bound (t.key, t) b ↔
      b.2 = t ∧ table.grammar.registry.find? (symbolsOfName t.key) = some b.1 := by
  have hkey : t.key ≠ "$" := fun h => hne (Terminal.key_injective (u := .endOfInput) h)
  rw [Table.Bound, if_neg hkey]
  constructor
  · rintro ⟨h, -, hfind⟩
    exact ⟨h, hfind⟩
  · rintro ⟨h, hfind⟩
    refine ⟨h, ?_, hfind⟩
    have hn := Registry.isNonTerminal_of_find? hfind
    rw [(isTerminalGroup_key hsolid ht).isNonTerminalGroup, Handle.isNonTerminal_eq] at hn
    simpa using hn

/-- Every terminal gets its parser. -/
theorem exists_bind (husable : ∀ d ∈ ds, d.2.objection known = none)
    (h : (grammarOf entry start priorities ds).lower.result = .ok g) :
    ∃ bound, (Table.ofGrammar g).bind Terminal.endOfInput (Terminal.named (literalsOf ds)) =
      .ok bound := by
  have hsolid := solid_literalsOf husable
  obtain ⟨⟨augmented, rules, hrules, -, hstart, hrows⟩, ⟨handles, -, hgroup⟩, empty, nonEmpty, -,
    hempty, -⟩ := declared_of_lower h
  refine Table.exists_bind ?_ ?_
  · rintro ⟨key, t⟩ hgiven
    obtain ⟨rfl, ht, hne⟩ := mem_named.1 hgiven
    -- The grammar declares every terminal: in the pair, or in the group.
    have hfind : ∃ k, g.registry.find? (symbolsOfName t.key) = some k := by
      rcases Terminal.mem_every.1 ht with rfl | ht
      · exact ⟨empty, hempty⟩
      · have hkey := List.mem_map_of_mem (f := symbolsOfName) (mem_distinctKeys.2 ⟨t, ht, hne, rfl⟩)
        obtain ⟨k, -, hk⟩ := exists_of_forall₂ hgroup.flip hkey
        exact ⟨k, hk⟩
    obtain ⟨k, hk⟩ := hfind
    exact ⟨(k, t), (bound_key hsolid ht hne).2 ⟨rfl, hk⟩⟩
  · intro u hu
    obtain ⟨hterminal, rule, hrule, hmem⟩ := Grammar.mem_uses.1 (Grammar.mem_terminals.1 hu)
    have hnon : u.isNonTerminal = false := by rw [Handle.isNonTerminal_eq, hterminal]; rfl
    have hrule : rule ∈ g.rules := hrule
    rw [hrules] at hrule
    rcases List.mem_cons.1 hrule with rfl | hrule
    · rw [List.mem_singleton.1 hmem, hstart.2] at hnon
      cases hnon
    · obtain ⟨source, hsource, row, hrow, -, hrhs⟩ := hrows rule hrule
      obtain ⟨part, hpart, hstands⟩ := exists_of_forall₂ hrhs hmem
      obtain ⟨name, rfl, -⟩ | ⟨t, ht, hne, rfl⟩ := (row_of_mem_grammarOf hsource hrow).part hpart
      · rw [hstands.2] at hnon
        cases hnon
      · refine ⟨(t.key, t), mem_named.2 ⟨rfl, ht, hne⟩, fun b hb => ?_⟩
        exact Option.some.inj (((bound_key hsolid ht hne).1 hb).2.symm.trans hstands.1)

/-! ### Assembly -/

/-- Usable declarations have a grammar, whose table has its blame and its terminals. -/
theorem exists_parts (hstart : startOf known entry = .ok start)
    (husable : ∀ d ∈ ds, d.2.objection known = none) (priorities : LevelGraph String) :
    ∃ g conflicts bound, (grammarOf entry start priorities ds).lower.result = .ok g ∧
      blame (originTable ds) (Table.ofGrammar g) = .ok conflicts ∧
      (Table.ofGrammar g).bind Terminal.endOfInput (Terminal.named (literalsOf ds)) =
        .ok bound := by
  obtain ⟨g, hlower⟩ := (complete_grammarOf priorities hstart husable).exists_lower
  obtain ⟨conflicts, hconflicts⟩ :=
    exists_blame (originTable ds) (wellFormed_of_lower hlower) (issued_of_lower hlower)
  obtain ⟨bound, hbound⟩ := exists_bind husable hlower
  exact ⟨g, conflicts, bound, hlower, hconflicts, hbound⟩

/-- Usable declarations make a parser. -/
theorem exists_construct (hstart : startOf known entry = .ok start)
    (husable : ∀ d ∈ ds, d.2.objection known = none) (categories : List (String × Option Span))
    (priorities : LevelGraph String) (config : ExecutorConfig) (sink : Sink) :
    ∃ answer, (construct categories priorities ds entry start config sink).result = .ok answer := by
  obtain ⟨g, conflicts, bound, hlower, hconflicts, hbound⟩ := exists_parts hstart husable priorities
  obtain ⟨sink', hsink⟩ := Traced.exists_foldlM (ε := Failure)
    (fun (sink : Sink) b => sink.exists_report (warning categories ds b)) conflicts sink
  refine Traced.exists_bind hlower ?_
  refine Traced.exists_bind (Table.build_result g Failure) ?_
  refine Traced.exists_bind (a := conflicts) (by rw [hconflicts]; rfl) ?_
  refine Traced.exists_bind hsink ?_
  refine Traced.exists_bind (Traced.emit_result _) ?_
  exact Traced.exists_bind (a := bound) hbound ⟨_, rfl⟩

end

/-- What is answered once the entries are accepted. -/
theorem assemble_eq_ok {c : Catalogue} (entry : Entry) (config : ExecutorConfig)
    {sink sink₁ sink₂ sink₃ : Sink} {known : List (String × Option Span)}
    {priorities : LevelGraph String} {ds : List (Nat × Declaration)}
    (hknown : (c.acceptCategories sink : Traced Fault _).result = .ok (sink₁, known))
    (hpriorities : (c.acceptPriorities (known.map (·.1)) sink₁ : Traced Fault _).result =
      .ok (sink₂, priorities))
    (hds : (c.acceptDeclarations (known.map (·.1)) sink₂ : Traced Fault _).result =
      .ok (sink₃, ds)) :
    (∀ problem, startOf (known.map (·.1)) entry = .error problem →
      (c.assemble entry config sink).result = .ok (sink₃, .error problem)) ∧
    ∀ start sink₄ a, startOf (known.map (·.1)) entry = .ok start →
      (construct known priorities ds entry start config sink₃).result = .ok (sink₄, a) →
      (c.assemble entry config sink).result = .ok (sink₄, .ok a) := by
  refine ⟨fun problem hstart => ?_, fun start sink₄ a hstart hconstruct => ?_⟩
  all_goals
    refine Traced.bind_eq_ok.2 ⟨_, hknown, Traced.bind_eq_ok.2 ⟨_, hpriorities, ?_⟩⟩
    refine Traced.bind_eq_ok.2 ⟨_, hds, ?_⟩
    dsimp only
    rw [hstart]
  · rfl
  · refine Traced.bind_eq_ok.2 ⟨.ok (sink₄, a), ?_, rfl⟩
    rw [Traced.catchProblem, hconstruct]

/-- For a known entry a parser is assembled. -/
theorem exists_assembled (c : Catalogue) {entry : Entry}
    (hentry : ∀ name, entry = .category name → name ∈ c.categories.map (·.1))
    (config : ExecutorConfig) (sink : Sink) :
    ∃ sink' a, (c.assemble entry config sink).result = .ok (sink', .ok a) := by
  obtain ⟨sink₁, known, hknown, hnames⟩ := c.exists_acceptCategories (ε := Fault) sink
  obtain ⟨⟨sink₂, priorities⟩, hpriorities⟩ :=
    c.exists_acceptPriorities (ε := Fault) (known.map (·.1)) sink₁
  obtain ⟨sink₃, hds⟩ := c.exists_acceptDeclarations (ε := Fault) (known.map (·.1)) sink₂
  cases hstart : startOf (known.map (·.1)) entry with
  | error problem =>
    obtain ⟨name, rfl, hname, -⟩ := startOf_eq_error.1 hstart
    exact absurd ((hnames name).2 (hentry name rfl)) hname
  | ok start =>
    obtain ⟨⟨sink₄, a⟩, hconstruct⟩ := exists_construct hstart
      (fun d hd => (acceptDeclarations_usable hds d hd).2) known priorities config sink₃
    have hdone := (assemble_eq_ok entry config hknown hpriorities hds).2
    exact ⟨sink₄, a, hdone start sink₄ a hstart hconstruct⟩

/-- The parser of every terminal that the rules use, and of the end of input, is its own. -/
theorem Assembles.exists_parser {c : Catalogue} {entry : Entry} {a : Assembled}
    {known : List String} {ds : List (Nat × Declaration)} {start : String}
    (h : c.Assembles entry a known ds start) {k : Handle}
    (hk : k ∈ Handle.endOfInput :: a.table.grammar.terminals) :
    ∃ t, a.table.grammar.registry.handleOf t = some k ∧
      ∀ σ : Type, (a.executor (σ := σ)).terminals.lookup k = some (t.parser a.literals) := by
  have hl := h.lexicon
  obtain ⟨t, ht, hhandle⟩ := hl.used k hk
  refine ⟨t, hhandle, fun σ => ?_⟩
  rw [Assembled.lookup_executor, hl.lookup.2 ⟨ht, hhandle⟩]
  rfl

/-- **Assembly is total.** Whatever is declared, an answer is given. It is a problem exactly if the
entry is a category that is not declared, and then it says so. Otherwise it is a parser: the grammar
of all usable declarations was lowered, every nonterminal that its rules use has a rule, and every
terminal that they use is bound to its own parser. -/
theorem assemble_total (c : Catalogue) (entry : Entry) (config : ExecutorConfig) (sink : Sink) :
    ∃ sink' answer, (c.assemble entry config sink).result = .ok (sink', answer) ∧
      (∀ problem, answer = .error problem ↔
        ∃ name, entry = .category name ∧ name ∉ c.categories.map (·.1) ∧
          problem = .unknownCategory name) ∧
      ((∀ name, entry = .category name → name ∈ c.categories.map (·.1)) →
        ∃ a known start, answer = .ok a ∧ a.config = config ∧
          (∀ name, name ∈ known ↔ name ∈ c.categories.map (·.1)) ∧
          c.Assembles entry a known (c.usable known) start ∧
          (∀ rule ∈ a.table.grammar.rules, ∀ s ∈ rule.rhs, s.isNonTerminal →
            ∃ other ∈ a.table.grammar.rules, other.lhs = s) ∧
          ∀ k ∈ Handle.endOfInput :: a.table.grammar.terminals,
            ∃ t, a.table.grammar.registry.handleOf t = some k ∧
              ∀ σ : Type, (a.executor (σ := σ)).terminals.lookup k =
                some (t.parser a.literals)) := by
  obtain ⟨sink₁, known, hknown, hnames⟩ := c.exists_acceptCategories (ε := Fault) sink
  obtain ⟨⟨sink₂, priorities⟩, hpriorities⟩ :=
    c.exists_acceptPriorities (ε := Fault) (known.map (·.1)) sink₁
  obtain ⟨sink₃, hds⟩ := c.exists_acceptDeclarations (ε := Fault) (known.map (·.1)) sink₂
  obtain ⟨hfailed, hdone⟩ := assemble_eq_ok entry config hknown hpriorities hds
  have husable := acceptDeclarations_usable hds
  have herror : ∀ problem, startOf (known.map (·.1)) entry = .error problem ↔
      ∃ name, entry = .category name ∧ name ∉ c.categories.map (·.1) ∧
        problem = .unknownCategory name := by
    intro problem
    simp only [startOf_eq_error, hnames]
  cases hstart : startOf (known.map (·.1)) entry with
  | error problem =>
    refine ⟨sink₃, .error problem, hfailed problem hstart, fun problem' => ?_, fun hentry => ?_⟩
    · rw [← herror problem', hstart, Except.error.injEq, Except.error.injEq]
    · obtain ⟨name, rfl, hname, -⟩ := (herror problem).1 hstart
      exact absurd (hentry name rfl) hname
  | ok start =>
    obtain ⟨⟨sink₄, a⟩, hconstruct⟩ := exists_construct hstart
      (fun d hd => (husable d hd).2) known priorities config sink₃
    obtain ⟨-, hconfig, hlower, htable, hbind, hliterals, hblame⟩ := construct_eq_ok hconstruct
    have hparts : c.Assembles entry a (known.map (·.1)) (c.usable (known.map (·.1))) start :=
      ⟨hstart, husable, hlower, htable, hbind, hliterals, hblame⟩
    refine ⟨sink₄, .ok a, hdone start sink₄ a hstart hconstruct, fun problem => ?_, fun _ =>
      ⟨a, _, start, rfl, hconfig, hnames, hparts, hparts.wellFormed.defined, fun k hk => ?_⟩⟩
    · rw [← herror problem, hstart]
      exact ⟨fun h => (nomatch h), fun h => nomatch h⟩
    · exact hparts.exists_parser hk

end Catalogue

end Mixfix
