import Mixfix.Assembly
import Mixfix.Proofs.Grammar.Flat
import Mixfix.Proofs.Terminal.Exclusion

/-!
# The parts of an assembled parser

An assembled parser comes from the declarations that nothing speaks against.  Its grammar has a rule
for each row of a form, of a category or of a term in parentheses, with the handles of the symbols
of the row, and one rule more for the nonterminal in front of the entry's.

* `Catalogue.Assembles`: the parts of an assembled parser.
* `Catalogue.assembles_of_assemble`: what is assembled has them.
* `Catalogue.accepts_of_assemble`: they are made of the accepted entries.
* `Catalogue.Row`: the rows of declared syntax.
* `Catalogue.Assembles.rules`: the rules of the grammar come from such rows.
-/

namespace Mixfix

namespace Catalogue

/-! ### Assembly -/

/-- The parts of an assembled parser: usable declarations, the grammar made of them, its table, and
the terminals bound to it. -/
structure Assembles (c : Catalogue) (entry : Entry) (a : Assembled) (known : List String)
    (ds : List (Nat × Declaration)) (start : String) : Prop where
  entered : startOf known entry = .ok start
  usable : ∀ d ∈ ds, d.2 ∈ c.declarations ∧ d.2.objection known = none
  lowered : (grammarOf entry start a.priorities ds).lower.result = .ok a.table.grammar
  table : a.table = Table.ofGrammar a.table.grammar
  bound : a.table.bind Terminal.endOfInput (Terminal.named (literalsOf ds)) = .ok a.terminals
  literals : a.literals = Terminal.allLiterals (literalsOf ds)
  blamed : blame (originTable ds) a.table = .ok a.conflicts

theorem construct_eq_ok {known : List (String × Option Span)} {priorities : LevelGraph String}
    {ds : List (Nat × Declaration)} {entry : Entry} {start : String} {config : ExecutorConfig}
    {sink sink' : Sink} {a : Assembled}
    (h : (construct known priorities ds entry start config sink).result = .ok (sink', a)) :
    a.priorities = priorities ∧ a.config = config ∧
      (grammarOf entry start a.priorities ds).lower.result = .ok a.table.grammar ∧
      a.table = Table.ofGrammar a.table.grammar ∧
      a.table.bind Terminal.endOfInput (Terminal.named (literalsOf ds)) = .ok a.terminals ∧
      a.literals = Terminal.allLiterals (literalsOf ds) ∧
      blame (originTable ds) a.table = .ok a.conflicts := by
  unfold construct at h
  obtain ⟨g, hg, h⟩ := Traced.bind_eq_ok.1 h
  obtain ⟨table, htable, h⟩ := Traced.bind_eq_ok.1 h
  obtain ⟨conflicts, hblame, h⟩ := Traced.bind_eq_ok.1 h
  obtain ⟨sink₁, -, h⟩ := Traced.bind_eq_ok.1 h
  obtain ⟨⟨⟩, -, h⟩ := Traced.bind_eq_ok.1 h
  obtain ⟨terminals, hbind, h⟩ := Traced.bind_eq_ok.1 h
  rw [Table.build_result] at htable
  cases htable
  cases h
  refine ⟨rfl, rfl, hg, rfl, hbind, rfl, ?_⟩
  show blame (originTable ds) (Table.ofGrammar g) = .ok conflicts
  cases hb : blame (originTable ds) (Table.ofGrammar g) with
  | error f =>
    rw [hb] at hblame
    cases hblame
  | ok conflicts' =>
    rw [hb] at hblame
    cases hblame
    rfl

/-- A fold keeps what its steps keep. -/
theorem foldlM_keeps {ε α β : Type} {f : β → α → Traced ε β} {P : β → Prop} {l : List α} {b b' : β}
    (hf : ∀ {b a b'}, a ∈ l → P b → (f b a).result = .ok b' → P b')
    (hb : P b) (h : (l.foldlM f b).result = .ok b') : P b' := by
  induction l generalizing b with
  | nil =>
    cases h
    exact hb
  | cons a l ih =>
    rw [List.foldlM_cons] at h
    obtain ⟨b₁, h₁, h⟩ := Traced.bind_eq_ok.1 h
    exact ih (fun ha => hf (List.mem_cons_of_mem a ha)) (hf List.mem_cons_self hb h₁) h

/-- The accepted declarations are declared and have no objection. -/
theorem acceptDeclarations_usable {c : Catalogue} {known : List String} {sink sink' : Sink}
    {ds : List (Nat × Declaration)} {ε : Type}
    (h : (c.acceptDeclarations known sink : Traced ε _).result = .ok (sink', ds)) :
    ∀ d ∈ ds, d.2 ∈ c.declarations ∧ d.2.objection known = none := by
  refine foldlM_keeps (P := fun state : Sink × List (Nat × Declaration) =>
    ∀ d ∈ state.2, d.2 ∈ c.declarations ∧ d.2.objection known = none) ?_
    (fun _ h => absurd h List.not_mem_nil) h
  rintro ⟨sink, usable⟩ ⟨d, i⟩ state hd husable hstep
  dsimp only at hstep
  split at hstep
  · obtain ⟨sink₁, -, hstep⟩ := Traced.bind_eq_ok.1 hstep
    cases hstep
    exact husable
  · next hobjection =>
    cases hstep
    intro d' hd'
    rcases List.mem_append.1 hd' with hd' | hd'
    · exact husable d' hd'
    · rw [List.mem_singleton.1 hd']
      exact ⟨List.fst_mem_of_mem_zipIdx hd, hobjection⟩

/-- Every assembled parser is made of what was accepted. -/
theorem accepts_of_assemble {c : Catalogue} {entry : Entry} {config : ExecutorConfig}
    {sink sink' : Sink} {a : Assembled}
    (h : (c.assemble entry config sink).result = .ok (sink', .ok a)) :
    ∃ sink₁ known sink₂ sink₃ ds start,
      (c.acceptCategories sink : Traced Fault _).result = .ok (sink₁, known) ∧
      (c.acceptPriorities (known.map (·.1)) sink₁ : Traced Fault _).result =
        .ok (sink₂, a.priorities) ∧
      (c.acceptDeclarations (known.map (·.1)) sink₂ : Traced Fault _).result = .ok (sink₃, ds) ∧
      a.config = config ∧ c.Assembles entry a (known.map (·.1)) ds start := by
  unfold assemble at h
  obtain ⟨⟨sink₁, known⟩, hknown, h⟩ := Traced.bind_eq_ok.1 h
  obtain ⟨⟨sink₂, priorities⟩, hpriorities, h⟩ := Traced.bind_eq_ok.1 h
  obtain ⟨⟨sink₃, ds⟩, hds, h⟩ := Traced.bind_eq_ok.1 h
  dsimp only at h
  split at h
  · cases h
  · next start hstart =>
    obtain ⟨answer, hanswer, h⟩ := Traced.bind_eq_ok.1 h
    split at h
    · cases h
    · next sink₄ assembled =>
      cases h
      have hconstruct : (construct known priorities ds entry start config sink₃).result =
          .ok (sink', a) := by
        rw [Traced.catchProblem] at hanswer
        dsimp only at hanswer
        split at hanswer
        · next h => cases hanswer; exact h
        · cases hanswer
        · cases hanswer
      obtain ⟨rfl, hconfig, hlower, htable, hbind, hliterals, hblame⟩ := construct_eq_ok hconstruct
      exact ⟨sink₁, known, sink₂, sink₃, ds, start, hknown, hpriorities, hds, hconfig, hstart,
        acceptDeclarations_usable hds, hlower, htable, hbind, hliterals, hblame⟩

/-- Every assembled parser has its parts. -/
theorem assembles_of_assemble {c : Catalogue} {entry : Entry} {config : ExecutorConfig}
    {sink sink' : Sink} {a : Assembled}
    (h : (c.assemble entry config sink).result = .ok (sink', .ok a)) :
    a.config = config ∧ ∃ known ds start, c.Assembles entry a known ds start := by
  obtain ⟨-, known, -, -, ds, start, -, -, -, hconfig, hparts⟩ := accepts_of_assemble h
  exact ⟨hconfig, _, ds, start, hparts⟩

/-! ### Usable declarations -/

/-- A usable declaration has fragments, its texts are solid, and it neither begins nor ends with a
space. -/
theorem usable_of_objection {d : Declaration} {known : List String}
    (h : d.objection known = none) :
    d.fragments ≠ [] ∧ (∀ text ∈ d.fragments.filterMap Fragment.text?, Terminal.Solid text) ∧
      (∀ f ∈ d.fragments.head?, f.isSpace = false) ∧
      ∀ f ∈ d.fragments.getLast?, f.isSpace = false := by
  unfold Declaration.objection at h
  dsimp only at h
  split at h
  · cases h
  · next hempty =>
    split at h
    · cases h
    · next hblank =>
      split at h
      · cases h
      · next hends =>
        rw [Bool.or_eq_true, not_or, Bool.not_eq_true, List.isEmpty_eq_false_iff,
          Bool.not_eq_true, List.any_eq_false] at hempty
        rw [Bool.not_eq_true, List.any_eq_false] at hblank
        rw [Bool.or_eq_true, not_or, Bool.not_eq_true, Bool.not_eq_true] at hends
        have hspace : ∀ {o : Option Fragment}, o.any Fragment.isSpace = false →
            ∀ f ∈ o, f.isSpace = false := by
          rintro o ho f rfl
          exact ho
        refine ⟨hempty.1, fun text ht => ⟨fun heq => ?_, fun c hc => ?_⟩, hspace hends.1,
          hspace hends.2⟩
        · exact hempty.2 text ht (by rw [heq]; rfl)
        · have := hblank text ht
          rw [Bool.not_eq_true, List.any_eq_false] at this
          simpa using this c hc

theorem mem_literalsOf {ds : List (Nat × Declaration)} {d : Nat × Declaration} (hd : d ∈ ds)
    {text : String} (ht : .text text ∈ d.2.fragments) : text ∈ literalsOf ds :=
  Ascending.mem_ofList.2 (List.mem_flatMap.2 ⟨d, hd, List.mem_filterMap.2 ⟨_, ht, rfl⟩⟩)

/-- The literals of usable declarations are solid. -/
theorem solid_literalsOf {ds : List (Nat × Declaration)} {known : List String}
    (husable : ∀ d ∈ ds, d.2.objection known = none) :
    ∀ text ∈ literalsOf ds, Terminal.Solid text := by
  intro text htext
  obtain ⟨d, hd, htext⟩ := List.mem_flatMap.1 (Ascending.mem_ofList.1 htext)
  exact (usable_of_objection (husable d hd)).2.1 text htext

/-! ### The rows of the grammar -/

theorem isSymbol_fragmentExpr (f : Fragment) : (fragmentExpr f).IsSymbol := by
  cases f with
  | text text => trivial
  | space optional => cases optional <;> trivial
  | bound name => trivial
  | free above => cases above <;> trivial

/-- A nonterminal of declared syntax: its name is not that of the augmented one. -/
def IsName (name : String) : Prop :=
  name = anyName ∨ name = parensName ∨ (∃ category, name = atomicName category) ∨
    (∃ category, name = greaterName category) ∨ ∃ index, name = formName index

/-- The initials of the names of declared syntax. -/
theorem IsName.head {name : String} (h : IsName name) :
    ∃ c ∈ ['A', 'P', 'G', 'F'], name.toList.head? = some c := by
  have hhead : ∀ {s t : String} {c : Char} {rest : List Char}, s.toList = c :: rest →
      (s ++ t).toList.head? = some c := by
    intro s t c rest hs
    simp [hs]
  rcases h with rfl | rfl | ⟨category, rfl⟩ | ⟨category, rfl⟩ | ⟨index, rfl⟩
  · exact ⟨'A', by simp, rfl⟩
  · exact ⟨'P', by simp, rfl⟩
  · exact ⟨'A', by simp, hhead (s := "Atomic:") rfl⟩
  · exact ⟨'G', by simp, hhead (s := "Greater:") rfl⟩
  · have hform : formName index = "Form:" ++ toString index := rfl
    rw [hform]
    exact ⟨'F', by simp, hhead (s := "Form:") rfl⟩

theorem IsName.ne_augmented {name : String} (h : IsName name) : name ≠ augmentedStart := by
  rintro rfl
  obtain ⟨c, hc, hhead⟩ := h.head
  obtain rfl : 'S' = c := Option.some.inj hhead
  exact absurd hc (by decide)

theorem IsName.isNonTerminalSymbol {name : String} (h : IsName name) :
    isNonTerminalSymbol name := by
  obtain ⟨c, hc, hhead⟩ := h.head
  rw [Mixfix.isNonTerminalSymbol, hhead]
  simp only [List.mem_cons, List.not_mem_nil, or_false] at hc
  rcases hc with rfl | rfl | rfl | rfl <;> decide

/-- The rows of declared syntax: a variable or a nonterminal alone, a term in parentheses, or the
fragments of a usable declaration. -/
inductive Row (ds : List (Nat × Declaration)) : List Expr → Prop where
  | identifier : Row ds [termExpr .identifier]
  | name {name : String} : IsName name → Row ds [.nonTerminal name]
  | parens : Row ds [termExpr (.literal "("), termExpr .optionalBlank, .nonTerminal anyName,
      termExpr .optionalBlank, termExpr (.literal ")")]
  | form {d : Nat × Declaration} : d ∈ ds → Row ds (d.2.fragments.map fragmentExpr)

theorem row_of_mem_termAlternatives {ds : List (Nat × Declaration)} {e : Expr}
    (he : e ∈ termAlternatives) : Row ds [e] := by
  rw [termAlternatives, List.mem_cons, List.mem_singleton] at he
  rcases he with rfl | rfl
  · exact .identifier
  · exact .name (.inr (.inl rfl))

theorem Row.isSymbol {ds : List (Nat × Declaration)} {row : List Expr} (h : Row ds row) :
    ∀ e ∈ row, e.IsSymbol := by
  cases h with
  | identifier => simp [termExpr, Expr.named, Expr.IsSymbol]
  | name _ => simp [Expr.IsSymbol]
  | parens => simp [termExpr, Expr.named, Expr.IsSymbol]
  | form _ =>
    intro e he
    obtain ⟨f, -, rfl⟩ := List.mem_map.1 he
    exact isSymbol_fragmentExpr f

/-- The rules of declared syntax. -/
inductive IsRule (entry : Entry) (priorities : LevelGraph String) (ds : List (Nat × Declaration)) :
    String × Expr → Prop where
  | any : IsRule entry priorities ds (anyName, .alt termAlternatives)
  | parens : IsRule entry priorities ds (parensName, .seq [termExpr (.literal "("),
      termExpr .optionalBlank, .nonTerminal anyName, termExpr .optionalBlank,
      termExpr (.literal ")")])
  | form {d : Nat × Declaration} : d ∈ ds →
      IsRule entry priorities ds (formName d.1, .seq (d.2.fragments.map fragmentExpr))
  | atomic {d : Nat × Declaration} : d ∈ ds →
      IsRule entry priorities ds (atomicName d.2.category, .nonTerminal (formName d.1))
  | populated {name : String} : name ∈ populated ds →
      IsRule entry priorities ds (anyName, .nonTerminal (atomicName name))
  | entry {name : String} : entry = .category name → name ∉ Catalogue.populated ds →
      IsRule entry priorities ds (atomicName name, .alt termAlternatives)
  | greater {category : String} : category ∈ tighter ds →
      IsRule entry priorities ds (greaterRule priorities ds category)

theorem mem_entryRules {entry : Entry} {ds : List (Nat × Declaration)} {rule : String × Expr} :
    rule ∈ entryRules entry ds ↔ ∃ name, entry = .category name ∧ name ∉ populated ds ∧
      rule = (atomicName name, .alt termAlternatives) := by
  cases entry with
  | any => simp [entryRules]
  | category name =>
    by_cases hname : name ∈ populated ds
    · simp [entryRules, hname]
    · simp [entryRules, hname]

theorem mem_rules {entry : Entry} {start : String} {priorities : LevelGraph String}
    {ds : List (Nat × Declaration)} {rule : String × Expr} :
    rule ∈ (grammarOf entry start priorities ds).rules ↔ IsRule entry priorities ds rule := by
  simp only [grammarOf, baseRules, formRules, List.mem_append, List.mem_flatMap, List.mem_map,
    List.mem_cons, List.not_mem_nil, or_false, or_assoc, mem_entryRules]
  constructor
  · rintro (rfl | rfl | ⟨d, hd, rfl | rfl⟩ | ⟨name, hname, rfl⟩ | ⟨name, hentry, hname, rfl⟩ |
      ⟨category, hcategory, rfl⟩)
    · exact .any
    · exact .parens
    · exact .form hd
    · exact .atomic hd
    · exact .populated hname
    · exact .entry hentry hname
    · exact .greater hcategory
  · intro h
    cases h with
    | any => exact .inl rfl
    | parens => exact .inr (.inl rfl)
    | form hd => exact .inr (.inr (.inl ⟨_, hd, .inl rfl⟩))
    | atomic hd => exact .inr (.inr (.inl ⟨_, hd, .inr rfl⟩))
    | populated hname => exact .inr (.inr (.inr (.inl ⟨_, hname, rfl⟩)))
    | entry hentry hname => exact .inr (.inr (.inr (.inr (.inl ⟨_, hentry, hname, rfl⟩))))
    | greater hcategory => exact .inr (.inr (.inr (.inr (.inr ⟨_, hcategory, rfl⟩))))

/-- Every row of the grammar of declared syntax is one of these. -/
theorem row_of_mem_grammarOf {entry : Entry} {start : String} {priorities : LevelGraph String}
    {ds : List (Nat × Declaration)} {rule : String × Expr}
    (h : rule ∈ (grammarOf entry start priorities ds).rules) {row : List Expr}
    (hrow : row ∈ rule.2.rows) : Row ds row := by
  have halt : ∀ {es : List Expr}, (∀ e ∈ es, Row ds [e]) → row ∈ (Expr.alt es).rows →
      Row ds row := by
    intro es hes hrow
    obtain ⟨e, he, rfl⟩ := List.mem_map.1 hrow
    exact hes e he
  have hterms : ∀ e ∈ termAlternatives, Row ds [e] := fun _ => row_of_mem_termAlternatives
  cases mem_rules.1 h with
  | any => exact halt hterms hrow
  | parens =>
    rw [List.mem_singleton.1 hrow]
    exact .parens
  | form hd =>
    rw [List.mem_singleton.1 hrow]
    exact .form hd
  | atomic _ =>
    rw [List.mem_singleton.1 hrow]
    exact .name (.inr (.inr (.inr (.inr ⟨_, rfl⟩))))
  | populated _ =>
    rw [List.mem_singleton.1 hrow]
    exact .name (.inr (.inr (.inl ⟨_, rfl⟩)))
  | entry _ _ => exact halt hterms hrow
  | greater _ =>
    refine halt (fun e he => ?_) hrow
    rcases List.mem_append.1 he with he | he
    · obtain ⟨name, -, rfl⟩ := List.mem_map.1 he
      exact .name (.inr (.inr (.inl ⟨_, rfl⟩)))
    · exact hterms e he

/-- The nonterminals of a row are those of declared syntax. -/
theorem Row.isName {ds : List (Nat × Declaration)} {row : List Expr} (h : Row ds row)
    {name : String} (hn : .nonTerminal name ∈ row) : IsName name := by
  cases h with
  | identifier => simp [termExpr, Expr.named] at hn
  | name h =>
    cases List.mem_singleton.1 hn
    exact h
  | parens =>
    simp only [termExpr, Expr.named, List.mem_cons, reduceCtorEq, Expr.nonTerminal.injEq,
      List.not_mem_nil, or_false, false_or] at hn
    exact .inl hn
  | form _ =>
    obtain ⟨f, -, hf⟩ := List.mem_map.1 hn
    cases f with
    | text text => cases hf
    | space optional => cases optional <;> cases hf
    | bound name => cases hf
    | free above =>
      cases above with
      | none =>
        cases hf
        exact .inl rfl
      | some category =>
        cases hf
        exact .inr (.inr (.inr (.inl ⟨category, rfl⟩)))

/-- The nonterminal of an entry. -/
def entryName : Entry → String
  | .any => anyName
  | .category name => atomicName name

theorem entryName_of_startOf {known : List String} {entry : Entry} {start : String}
    (h : startOf known entry = .ok start) : start = entryName entry := by
  unfold startOf at h
  split at h
  · cases h
    rfl
  · split at h
    · cases h
      rfl
    · cases h

/-! ### The grammar -/

section

variable {entry : Entry} {start : String} {priorities : LevelGraph String}
  {ds : List (Nat × Declaration)} {g : Grammar}

theorem wellFormed_of_lower (h : (grammarOf entry start priorities ds).lower.result = .ok g) :
    g.WellFormed := by
  obtain ⟨_, _, _, _, _, -, -, -, hof⟩ := ExprGrammar.lower_eq_ok h
  exact .of_ofRules hof

/-- The grammar is flat, so that the handles of its rules and of what it declares are known. -/
theorem declared_of_lower (h : (grammarOf entry start priorities ds).lower.result = .ok g) :
    (∃ augmented rules, g.rules = ⟨augmented, [g.start]⟩ :: rules ∧
      g.registry.find? [augmentedStart] = some augmented ∧
      g.registry.Stands (.nonTerminal start) g.start ∧
      ∀ rule ∈ rules,
        Lowering.FromRow g.registry (grammarOf entry start priorities ds).rules rule) ∧
    (∃ handles, g.registry.groups = [handles] ∧
      List.Forall₂ (fun group handle => g.registry.find? group = some handle)
        ((Terminal.distinctKeys (literalsOf ds)).map symbolsOfName) handles) ∧
    ∃ empty nonEmpty, g.registry.emptyPairs = [(empty, nonEmpty)] ∧
      g.registry.find? (symbolsOfName Terminal.optionalBlank.key) = some empty ∧
      g.registry.find? (symbolsOfName Terminal.blank.key) = some nonEmpty :=
  ExprGrammar.lower_flat h
    (fun _ hrule _ hrow => (row_of_mem_grammarOf hrule hrow).isSymbol) rfl rfl rfl

/-- The nonterminals of the rules have names. -/
theorem exists_find?_of_lower (h : (grammarOf entry start priorities ds).lower.result = .ok g)
    {rule : Rule} (hrule : rule ∈ g.rules) : ∃ name, g.registry.find? [name] = some rule.lhs := by
  obtain ⟨⟨augmented, rules, hrules, haugmented, -, hrows⟩, -⟩ := declared_of_lower h
  rw [hrules] at hrule
  rcases List.mem_cons.1 hrule with rfl | hrule
  · exact ⟨_, haugmented⟩
  · obtain ⟨source, -, row, -, hlhs, -⟩ := hrows rule hrule
    exact ⟨_, hlhs.1⟩

/-- They are issued. -/
theorem issued_of_lower (h : (grammarOf entry start priorities ds).lower.result = .ok g) :
    ∀ rule ∈ g.rules, (g.registry.lookup? rule.lhs).isSome := by
  intro rule hrule
  obtain ⟨name, hname⟩ := exists_find?_of_lower h hrule
  rw [Registry.lookup?_of_find? hname]
  rfl

end

namespace Assembles

variable {c : Catalogue} {entry : Entry} {a : Assembled} {known : List String}
  {ds : List (Nat × Declaration)} {start : String}

theorem solid (h : c.Assembles entry a known ds start) :
    ∀ text ∈ literalsOf ds, Terminal.Solid text :=
  solid_literalsOf fun d hd => (h.usable d hd).2

theorem isName_start (h : c.Assembles entry a known ds start) : IsName start := by
  rw [entryName_of_startOf h.entered]
  cases entry with
  | any => exact .inl rfl
  | category name => exact .inr (.inr (.inl ⟨name, rfl⟩))

theorem wellFormed (h : c.Assembles entry a known ds start) : a.table.grammar.WellFormed :=
  wellFormed_of_lower h.lowered

/-- Every rule but the augmented one has the handles of a row of declared syntax. -/
theorem rules (h : c.Assembles entry a known ds start) :
    ∃ augmented rules, a.table.grammar.rules = ⟨augmented, [a.table.grammar.start]⟩ :: rules ∧
      a.table.grammar.registry.find? [augmentedStart] = some augmented ∧
      a.table.grammar.registry.Stands (.nonTerminal start) a.table.grammar.start ∧
      ∀ rule ∈ rules, ∃ row, Row ds row ∧
        (∃ name, a.table.grammar.registry.find? [name] = some rule.lhs) ∧
        List.Forall₂ a.table.grammar.registry.Stands row rule.rhs := by
  obtain ⟨⟨augmented, rules, hrules, haugmented, hstart, hrows⟩, -, -⟩ :=
    declared_of_lower h.lowered
  refine ⟨augmented, rules, hrules, haugmented, hstart, fun rule hrule => ?_⟩
  obtain ⟨source, hsource, row, hrow, hlhs, hrhs⟩ := hrows rule hrule
  exact ⟨row, row_of_mem_grammarOf hsource hrow, ⟨source.1, hlhs.1⟩, hrhs⟩

end Assembles

end Catalogue

end Mixfix
