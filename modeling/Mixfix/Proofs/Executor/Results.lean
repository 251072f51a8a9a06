import Mixfix.Proofs.Executor.Binding
import Mixfix.Proofs.Executor.Soundness
import Mixfix.Proofs.Grammar.Spelling

/-!
# Results follow the expressions

Where every parser gives tokens with the name of its terminal, and no terminal is possibly empty,
the result of a run is a tree of the start symbol.  In it the children of every tree match, as a row
of symbols, one of the expressions that the user gave for its nonterminal, and the nonterminals that
lowering made are nowhere to be seen.

The proof goes along the derivation tree of the result.  The node of a made nonterminal leaves its
children to its parent, and they are one of the rows of the nonterminal.  Any other node stays, and
stands for its own symbol there.

* `ExprGrammar.Follows`: a node that the expressions of a grammar allow.
* `Executor.reads_labelled`: what is read for a terminal is a token with its name.
* `Derivation.Fits.rows`: what the node of a derivation tree leaves to its parent.
* `Executor.parser_follows`: every node in a result follows the expressions.
-/

namespace Mixfix

namespace Node

/-- The symbols that a node stands for: those of the terminal that a token is named after, or the
nonterminal that a tree is tagged with. -/
def symbol : Node → List String
  | .token t => symbolsOfName t.tag
  | .tree (.tagged tag) _ _ => [tag]
  | .tree _ _ _ => []

/-- A node is another one or stands somewhere below it. -/
inductive Within (n : Node) : Node → Prop where
  | self : Within n n
  | child {kind : Kind} {span : Span} {children : List Node} {m : Node} : m ∈ children →
      Within n m → Within n (.tree kind span children)

end Node

namespace ExprGrammar

variable {g : ExprGrammar}

/-- A token, or a tree of one of the rules: it is tagged with the nonterminal, and its children
match the expression. -/
def Follows (g : ExprGrammar) : Node → Prop
  | .token _ => True
  | .tree kind _ children => ∃ rule ∈ g.rules, kind = .tagged rule.1 ∧
      children.map Node.symbol ∈ rule.2.spelling

/-- The symbols of some nodes are among these rows, and all nodes within them follow the
expressions. -/
structure Rows (g : ExprGrammar) (rows : Words) (nodes : List Node) : Prop where
  row : nodes.map Node.symbol ∈ rows
  follows : ∀ n ∈ nodes, ∀ m : Node, m.Within n → g.Follows m

namespace Rows

variable {rows rows' : Words} {nodes nodes' : List Node}

theorem nil : g.Rows 1 [] :=
  ⟨rfl, fun _ h => absurd h List.not_mem_nil⟩

theorem append (h : g.Rows rows nodes) (h' : g.Rows rows' nodes') :
    g.Rows (rows * rows') (nodes ++ nodes') where
  row := by
    rw [List.map_append]
    exact Language.append_mem_mul h.row h'.row
  follows := List.forall_mem_append.2 ⟨h.follows, h'.follows⟩

theorem mono (h : g.Rows rows nodes) (hle : rows ≤ rows') : g.Rows rows' nodes :=
  ⟨hle h.row, h.follows⟩

/-- A tree over a row that matches an expression of its nonterminal. -/
theorem tree {rule : String × Expr} (h : g.Rows rule.2.spelling nodes) (hrule : rule ∈ g.rules)
    (span : Span) : g.Rows (symbolic rule.1) [.tree (.tagged rule.1) span nodes] where
  row := rfl
  follows := by
    rw [List.forall_mem_singleton]
    intro m hm
    cases hm with
    | self => exact ⟨rule, hrule, rfl, h.row⟩
    | child hchild hwithin => exact h.follows _ hchild m hwithin

theorem token (t : Token) : g.Rows {[symbolsOfName t.tag]} [.token t] where
  row := rfl
  follows := by
    rw [List.forall_mem_singleton]
    intro m hm
    cases hm
    trivial

end Rows

end ExprGrammar

/-! ### Tokens with the names of their terminals -/

/-- Every success of a parser is a token with this label. -/
def Parser.Labels {σ : Type} (parser : Parser σ) (label : String) : Prop :=
  ∀ {s w p parsed}, (parser s w p).result = .ok (some parsed) →
    ∃ span, parsed.node = .token ⟨label, span⟩

/-- A token has its label. -/
theorem Parser.token_labels {σ : Type} (lexer : Lexer) (tag : String) :
    (Parser.token lexer tag : Parser σ).Labels tag := by
  intro s w p parsed h
  unfold Parser.token at h
  split at h
  · obtain ⟨line, -, h⟩ := Traced.bind_eq_ok.1 h
    obtain ⟨found, -, h⟩ := Traced.bind_eq_ok.1 h
    cases found <;> cases h
    exact ⟨_, rfl⟩
  · cases h

namespace Executor

variable {σ : Type} {e : Executor σ} {w : Window}

/-- What was taken for a terminal is a token that is named after it; what was taken for the end of
input may be anything. -/
def Ahead.Labelled (r : Registry) (token : Ahead σ) : Prop :=
  token.terminal ≠ .endOfInput →
    ∃ t, token.parsed.node = .token t ∧ r.find? (symbolsOfName t.tag) = some token.terminal

/-- What is read for a terminal has the label of its parser, and the terminal has that name. -/
theorem reads_labelled {table : Table} {named : List (String × Parser σ)} {config : ExecutorConfig}
    (hbind : bind table named config = .ok e)
    (hnamed : ∀ given ∈ named, given.1 ≠ "$" → given.2.Labels given.1) {c : Cursor σ} {t : Handle}
    {parsed : Parsed σ} (h : e.Reads w c t parsed) :
    Ahead.Labelled table.grammar.registry ⟨t, parsed⟩ := by
  intro hend
  obtain ⟨bound, hbound, he⟩ := except_bind_eq_ok.1 hbind
  cases he
  obtain ⟨⟨front, rfl, hall⟩, -⟩ := Table.bind_eq_ok hbound
  obtain ⟨parser, hlookup, hparser⟩ := h
  have hmem : (t, parser) ∈ front ++ [(Handle.endOfInput, Parser.endOfWindow)] :=
    mem_of_lookup_eq_some hlookup
  rcases List.mem_append.1 hmem with hmem | hmem
  · obtain ⟨given, hgiven, hparser', -, hname⟩ :=
      exists_of_forall₂ hall (List.mem_reverse.2 hmem)
    obtain rfl : parser = given.2 := hparser'
    split at hname
    · exact absurd hname hend
    · next hdollar =>
      obtain ⟨span, hnode⟩ := hnamed given hgiven hdollar hparser
      exact ⟨_, hnode, hname⟩
  · cases List.mem_singleton.1 hmem
    exact absurd rfl hend

/-- Where no terminal is possibly empty, the tokens of a chain were read for their terminals. -/
theorem Chain.reads (hpairs : e.table.grammar.registry.emptyPairs = []) {c d : Cursor σ}
    {tokens : List (Ahead σ)} (h : e.Chain w c tokens d) :
    ∀ token ∈ tokens, ∃ c', e.Reads w c' token.terminal token.parsed := by
  have hnone : ∀ t, e.table.grammar.registry.nonEmptyOf t = none := by
    intro t
    rw [Registry.nonEmptyOf, hpairs]
    rfl
  induction h with
  | nil => exact fun _ h => absurd h List.not_mem_nil
  | @cons c d token tokens htake _ ih =>
    refine List.forall_mem_cons.2 ⟨?_, ih⟩
    cases htake with
    | own hreads => exact ⟨c, hreads⟩
    | variant hnon => cases (hnone _).symm.trans hnon
    | empty hsome =>
      rw [hnone] at hsome
      cases hsome

end Executor

/-! ### Along a derivation tree -/

namespace Derivation

variable {σ : Type} {g : ExprGrammar} {G : Grammar} {ρ : String → Words} {w : Window}

/-- The node of a tree of a nonterminal is of the kind of that. -/
theorem Fits.node_kind {d : Derivation σ} {X : Handle} (h : Fits G d X) (hX : X.isNonTerminal)
    {kind : Kind} (hkind : G.kind X = .ok kind) {p : Position} {n : Node}
    (hn : d.node G w p = .ok n) : ∃ span children, n = .tree kind span children := by
  cases d with
  | leaf token =>
    rw [Fits] at h
    rw [Handle.isNonTerminal_eq, h.2] at hX
    cases hX
  | branch id ds =>
    rw [Fits] at h
    obtain ⟨rule, hr, rfl, -⟩ := h
    obtain ⟨kind', ns, hkind', -, rfl⟩ := (node_branch_eq_ok hr).1 hn
    cases hkind.symm.trans hkind'
    exact ⟨_, _, rfl⟩

mutual

/-- What the node of a tree leaves to its parent is a row of its symbol. -/
theorem Fits.rows (hg : g.SpelledBy G ρ) : ∀ {d : Derivation σ} {s : Handle} {p : Position}
    {n : Node}, Fits G d s → s ≠ .endOfInput →
      (∀ token ∈ d.tokens, token.Labelled G.registry) → d.node G w p = .ok n →
        g.Rows (G.registry.words ρ s) n.contribution
  | .leaf token, s, p, n, h, hs, hlabels, hn => by
    rw [Fits] at h
    obtain ⟨rfl, ht⟩ := h
    rw [node] at hn
    cases hn
    rw [tokens_leaf, List.forall_mem_singleton] at hlabels
    obtain ⟨t, hnode, hfind⟩ := hlabels hs
    rw [hnode, Registry.words_terminal hfind ht]
    exact .token t
  | .branch id ds, s, p, n, h, _, hlabels, hn => by
    rw [Fits] at h
    obtain ⟨rule, hr, rfl, hds⟩ := h
    obtain ⟨kind, ns, hkind, hns, rfl⟩ := (node_branch_eq_ok hr).1 hn
    have hmem := List.mem_of_getElem? hr
    rw [tokens_branch] at hlabels
    have hrows := FitsAll.rows hg hds (hg.endless rule hmem) hlabels hns
    rcases hg.spells rule hmem with ⟨htransparent, hle⟩ | ⟨source, hsource, htagged, hwords, hle⟩
    · -- The children of a transparent tree are what it leaves.
      cases hkind.symm.trans htransparent
      exact hrows.mono hle
    · cases hkind.symm.trans htagged
      rw [hwords]
      exact (hrows.mono hle).tree hsource _

/-- What the nodes of some trees leave to their parent is a row of their symbols. -/
theorem FitsAll.rows (hg : g.SpelledBy G ρ) : ∀ {ds : List (Derivation σ)}
    {symbols : List Handle} {p : Position} {ns : List Node}, FitsAll G ds symbols →
      .endOfInput ∉ symbols → (∀ token ∈ tokensAll ds, token.Labelled G.registry) →
        nodes G w ds p = .ok ns →
          g.Rows (G.registry.rowWords ρ symbols) (ns.flatMap Node.contribution)
  | [], symbols, p, ns, h, _, _, hns => by
    rw [fitsAll_nil] at h
    cases h
    cases nodes_nil.symm.trans hns
    exact .nil
  | d :: ds, symbols, p, ns, h, hend, hlabels, hns => by
    rw [FitsAll] at h
    obtain ⟨s, rest, rfl, hd, hds⟩ := h
    obtain ⟨n, ns', rfl, hn, hns'⟩ := nodes_cons_eq_ok.1 hns
    rw [tokensAll_cons, List.forall_mem_append] at hlabels
    rw [List.mem_cons, not_or] at hend
    rw [Registry.rowWords_cons, List.flatMap_cons]
    exact (Fits.rows hg hd (Ne.symm hend.1) hlabels.1 hn).append
      (FitsAll.rows hg hds hend.2 hlabels.2 hns')

end

end Derivation

namespace Executor

variable {σ : Type} {g : ExprGrammar} {G : Grammar} {e : Executor σ} {w : Window}

/-- **Results follow the expressions.** Lower a grammar without pairs and declared kinds, whose
nonterminals have no names that are reserved, and bind parsers that give tokens with the names of
their terminals.  Then the result of a run that gives no invalid trees is tagged with the start
symbol, and every node in it is a token, or a tree that is tagged with a nonterminal of the user and
whose children match one of the expressions for it. -/
theorem parser_follows (h : g.lower.result = .ok G) (hpairs : g.emptyPairs = [])
    (hkinds : g.kinds = [])
    (plain : ∀ name ∈ g.nonTerminals, name ≠ augmentedStart ∧ '~' ∉ name.toList) {table : Table}
    (ht : (Table.build G : Traced Fault Table).result = .ok table)
    {named : List (String × Parser σ)} {config : ExecutorConfig}
    (hbind : bind table named config = .ok e)
    (hnamed : ∀ given ∈ named, given.1 ≠ "$" → given.2.Labels given.1)
    (hinvalid : config.invalid = none) {limit : Nat} {s : σ} {p : Position} {parsed : Parsed σ}
    (hrun : (e.parser limit s w p).result = .ok (some parsed)) :
    (∃ span children, parsed.node = .tree (.tagged g.start) span children) ∧
      ∀ n : Node, n.Within parsed.node → g.Follows n := by
  obtain ⟨ρ, hg⟩ := ExprGrammar.lower_spelled h hkinds plain
  obtain ⟨_, _, _, _, _, _, _, _, hof⟩ := ExprGrammar.lower_eq_ok h
  have hconfig : e.config = config := by
    obtain ⟨bound, -, he⟩ := except_bind_eq_ok.1 hbind
    cases he
    rfl
  rw [← hconfig] at hinvalid
  obtain rfl := (binds_of_bind hbind).1
  have htable : e.table.grammar = G := by
    rw [Table.build_result] at ht
    exact congrArg Table.grammar (Except.ok.inj ht).symm
  have hnone : e.table.grammar.registry.emptyPairs = [] :=
    htable ▸ ExprGrammar.lower_emptyPairs h hpairs
  obtain ⟨tokens, last, ending, d, -, -, hchain, -, -, -, hfits, rfl, hnode⟩ :=
    parser_sound hof ht hinvalid hrun
  have hlabels : ∀ token ∈ d.tokens, token.Labelled G.registry := by
    intro token htoken
    obtain ⟨c, hreads⟩ := hchain.reads hnone token htoken
    exact htable ▸ reads_labelled hbind hnamed hreads
  obtain ⟨hstart, hkind⟩ := hg.start
  have hend : G.start ≠ .endOfInput := by
    rintro hend
    rw [hend] at hstart
    cases hstart
  have hrows := hfits.rows hg hend hlabels hnode
  obtain ⟨span, children, hroot⟩ := hfits.node_kind hstart hkind hnode
  -- A tagged root leaves itself.
  rw [hroot] at hrows ⊢
  exact ⟨⟨span, children, rfl⟩, hrows.follows _ (List.mem_singleton_self _)⟩

/-- Rows of `A`, each an `x` with an optional `y`. -/
def attached : ExprGrammar where
  start := "S"
  rules :=
    [("S", .star (.nonTerminal "A")), ("A", .seq [.terminal ["x"], .opt (.terminal ["y"])])]
  distinct := [[["x"], ["y"]]]

def attachedParsers : List (String × Parser Unit) :=
  [("x", .token (.literal ['x']) "x"), ("y", .token (.literal ['y']) "y")]

set_option maxRecDepth 8000 in
/-- Lowering makes two nonterminals of the sample; the tree of `xyx` has none of them. -/
theorem attached_follows : ∃ G e parsed, attached.lower.result = .ok G ∧
    (∀ name ∈ attached.nonTerminals, name ≠ augmentedStart ∧ '~' ∉ name.toList) ∧
    bind (Table.ofGrammar G) attachedParsers {} = .ok e ∧
    (∀ given ∈ attachedParsers, given.1 ≠ "$" → given.2.Labels given.1) ∧
    (e.parser 40 () (.ofSource (.ofText "xyx")) .zero).result = .ok (some parsed) ∧
    parsed.node.render = "(S (A x y) (A x))" ∧
    (∃ span children, parsed.node = .tree (.tagged "S") span children) ∧
    ∀ n : Node, n.Within parsed.node → attached.Follows n := by
  have h : (attached.lower.result.toOption.any fun G =>
      (bind (Table.ofGrammar G) attachedParsers {}).toOption.any fun e =>
        (e.parser 40 () (.ofSource (.ofText "xyx")) .zero).result.toOption.join.any
          fun parsed => parsed.node.render = "(S (A x y) (A x))") = true := by decide +kernel
  simp only [Option.any_eq_true, Option.join_eq_some_iff, except_toOption_eq_some,
    decide_eq_true_eq] at h
  obtain ⟨G, hlower, e, hbind, parsed, hrun, hrender⟩ := h
  have hplain : ∀ name ∈ attached.nonTerminals,
      name ≠ augmentedStart ∧ '~' ∉ name.toList := by decide
  have hlabels : ∀ given ∈ attachedParsers, given.1 ≠ "$" → given.2.Labels given.1 := by
    simp only [attachedParsers, List.forall_mem_cons]
    exact ⟨fun _ => Parser.token_labels _ _, fun _ => Parser.token_labels _ _,
      fun _ h => absurd h List.not_mem_nil⟩
  exact ⟨G, e, parsed, hlower, hplain, hbind, hlabels, hrun, hrender,
    parser_follows hlower rfl rfl hplain (Table.build_result G Fault) hbind hlabels rfl hrun⟩

end Executor

end Mixfix
