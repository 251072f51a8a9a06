import Mixfix.Proofs.Assembly.Decided
import Mixfix.Proofs.Assembly.Spacing
import Mixfix.Proofs.Terminal.Totality

/-!
# The language of an assembled parser

Text is cut into tokens of literals, variables and blanks. An assembled parser without conflicts
parses it exactly if the tokens spell a word of the declared language, in which blanks that may be
missing stand for nothing or for blanks.

* `Assembled.Cut`: text is cut into tokens.
* `Assembled.Declares`: terminals spell a word of the declared language.
* `Catalogue.Assembles.exists_declared`, `Catalogue.Assembles.exists_parsed`: the two directions.
* `Catalogue.parses_iff_declared`: what is parsed is what is declared.
-/

namespace Mixfix

theorem Parser.optional_result {σ : Type} {parser : Parser σ} {s : σ} {w : Window} {p : Position}
    {parsed : Parsed σ} (h : (optional parser s w p).result = .ok (some parsed)) :
    (parser s w p).result = .ok (some parsed) ∨ parsed = nothing s w p := by
  obtain ⟨answer, hanswer, h⟩ := Traced.bind_eq_ok.1 h
  cases answer with
  | none =>
    cases h
    exact .inr rfl
  | some parsed' =>
    cases h
    exact .inl hanswer

namespace Assembled

variable {a : Assembled} {literals : List String} {σ : Type} {w : Window} {c last : Cursor σ}

/-- The terminals that take a token: the literals, the variable and the blanks. -/
def visible (a : Assembled) : List Terminal := a.literals.map .literal ++ [.identifier, .blank]

/-- Tokens of the terminals follow one another from a place up to another. -/
inductive Cut (a : Assembled) (w : Window) : Cursor σ → List Terminal → Cursor σ → Prop where
  | nil (c : Cursor σ) : Cut a w c [] c
  | cons {c last : Cursor σ} {t : Terminal} {ts : List Terminal} {parsed : Parsed σ} :
      t ∈ a.visible → (t.parser a.literals c.user w c.position).result = .ok (some parsed) →
      Cut a w parsed.cursor ts last → Cut a w c (t :: ts) last

/-- The handles of some terminals. -/
def Handles (a : Assembled) : List Terminal → List Handle → Prop :=
  List.Forall₂ fun t k => a.table.grammar.registry.handleOf t = some k

theorem Handles.unique {ts : List Terminal} {ks ks' : List Handle} (h : a.Handles ts ks)
    (h' : a.Handles ts ks') : ks = ks' :=
  List.right_unique_forall₂' (fun _ _ _ hk hk' => Option.some.inj (hk.symm.trans hk')) h h'

namespace Lexicon

theorem mem_visible (hl : a.Lexicon literals) {t : Terminal} :
    t ∈ a.visible ↔ t ∈ Terminal.told literals ∧ t ≠ .endOfInput := by
  rw [visible, hl.literals_eq, Terminal.told]
  simp only [List.mem_append, List.mem_map, List.mem_cons, List.not_mem_nil, or_false]
  constructor
  · rintro (⟨text, htext, rfl⟩ | rfl | rfl)
    · exact ⟨.inl ⟨text, htext, rfl⟩, by rintro ⟨⟩⟩
    · exact ⟨.inr (.inl rfl), by rintro ⟨⟩⟩
    · exact ⟨.inr (.inr (.inl rfl)), by rintro ⟨⟩⟩
  · rintro ⟨htext | rfl | rfl | rfl, hne⟩
    · exact .inl htext
    · exact .inr (.inl rfl)
    · exact .inr (.inr rfl)
    · exact absurd rfl hne

/-- The handle of a terminal other than the optional blanks is that of its tokens. -/
theorem nonEmptyOf_eq_none (hl : a.Lexicon literals) {t : Terminal}
    (ht : t ∈ Terminal.told literals) {k : Handle}
    (hk : a.table.grammar.registry.handleOf t = some k) :
    a.table.grammar.registry.nonEmptyOf k = none := by
  cases hnon : a.table.grammar.registry.nonEmptyOf k with
  | none => rfl
  | some k' =>
    cases Registry.handleOf_injective (hl.nonEmptyOf.1 hnon).1 hk
    simp [Terminal.told] at ht

/-- Where a terminal takes a token, no other one does. -/
theorem sole (hl : a.Lexicon literals) (hw : w.Legible) (hp : w.Boundary c.position)
    {t : Terminal} (ht : t ∈ Terminal.told literals) {k : Handle}
    (hk : a.table.grammar.registry.handleOf t = some k) {parsed : Parsed σ}
    (hparsed : (t.parser a.literals c.user w c.position).result = .ok (some parsed)) :
    a.executor.Sole w c ⟨k, parsed⟩ where
  told := by
    refine ⟨hl.nonEmptyOf_eq_none ht hk, ?_⟩
    rw [lookup_executor, hl.lookup.2 ⟨Terminal.mem_every.2 (.inr ht), hk⟩]
    rfl
  result := by
    intro k' parser htold hparser
    rw [lookup_executor] at hparser
    obtain ⟨u, hu, rfl⟩ := Option.map_eq_some_iff.1 hparser
    obtain ⟨hu, hk'⟩ := hl.lookup.1 hu
    split
    · next heq =>
      subst heq
      cases Registry.handleOf_injective hk hk'
      exact hparsed
    · next hne =>
      -- The other terminal answers, and what it answers is not a token.
      obtain ⟨answer, hanswer, -⟩ := Terminal.parser_answers hw hp u c.user
      cases answer with
      | none => exact hanswer
      | some parsed' =>
        rw [hl.literals_eq] at hanswer hparsed
        cases Terminal.exclusive hl.solid (hl.mem_told_of_nonEmptyOf hu hk' htold.1) ht hanswer
          hparsed
        exact absurd (Option.some.inj (hk'.symm.trans hk)) hne

/-- Cut text is a row of tokens, and then the end of input. -/
theorem exists_laid (hl : a.Lexicon literals) (hw : w.Legible) {ts : List Terminal}
    (hcut : a.Cut w c ts last) (hp : w.Boundary c.position)
    (hdone : w.isDone last.position = .ok true) :
    ∃ tokens ending, a.Handles ts (tokens.map (·.terminal)) ∧
      a.executor.Laid w c (tokens ++ [⟨.endOfInput, ending⟩]) := by
  induction hcut with
  | nil c =>
    have hend : Terminal.endOfInput ∈ Terminal.told literals := by simp [Terminal.told]
    refine ⟨[], Parser.nothing c.user w c.position, .nil, ?_, trivial⟩
    exact hl.sole hw hp hend Registry.handleOf_end (Traced.bind_eq_ok.2 ⟨true, hdone, rfl⟩)
  | @cons c last t ts parsed ht hparsed _ ih =>
    obtain ⟨htold, -⟩ := hl.mem_visible.1 ht
    obtain ⟨k, hk⟩ := hl.exists_handle t (Terminal.mem_every.2 (.inr htold))
    obtain ⟨answer, hanswer, hboundary⟩ := Terminal.parser_answers hw hp t c.user
    cases hparsed.symm.trans hanswer
    obtain ⟨tokens, ending, hhandles, hlaid⟩ := ih (hboundary parsed rfl).2 hdone
    exact ⟨⟨k, parsed⟩ :: tokens, ending, .cons hk hhandles, hl.sole hw hp htold hk hparsed, hlaid⟩

/-- What is taken for a terminal is a token, or nothing for a possibly empty one. -/
theorem taken (hl : a.Lexicon literals) {token : Executor.Ahead σ}
    (h : a.executor.Takes w c token) (hend : token.terminal ≠ .endOfInput) :
    (∃ t ∈ a.visible, a.table.grammar.registry.handleOf t =
        some (a.table.grammar.registry.tokenOf token.terminal) ∧
      (t.parser a.literals c.user w c.position).result = .ok (some token.parsed)) ∨
    (a.table.grammar.registry.nonEmptyOf token.terminal).isSome ∧ token.parsed.cursor = c := by
  have hblank : Terminal.blank ∈ a.visible := by simp [visible]
  cases h with
  | @own k parsed hreads =>
    obtain ⟨t, ht, hk, hparsed⟩ := hl.of_reads hreads
    rw [← hl.literals_eq] at hparsed
    rcases Terminal.mem_every.1 ht with rfl | ht
    · obtain ⟨k', hk'⟩ := hl.exists_handle .blank (by simp)
      have hnon := hl.nonEmptyOf.2 ⟨hk, hk'⟩
      rcases Parser.optional_result hparsed with hparsed | hnothing
      · refine .inl ⟨.blank, hblank, ?_, hparsed⟩
        rw [Registry.tokenOf_of_some hnon]
        exact hk'
      · refine .inr ⟨by rw [hnon]; rfl, ?_⟩
        show parsed.cursor = c
        rw [hnothing]
        rfl
    · have hvisible : t ∈ a.visible := by
        refine hl.mem_visible.2 ⟨ht, ?_⟩
        rintro rfl
        exact hend (Option.some.inj (hk.symm.trans Registry.handleOf_end))
      refine .inl ⟨t, hvisible, ?_, hparsed⟩
      rw [Registry.tokenOf_of_none (hl.nonEmptyOf_eq_none ht hk)]
      exact hk
  | @variant k k' parsed hnon hreads =>
    obtain ⟨t, -, hk, hparsed⟩ := hl.of_reads hreads
    rw [← hl.literals_eq] at hparsed
    have hk' := (hl.nonEmptyOf.1 hnon).2
    cases Registry.handleOf_injective hk hk'
    refine .inl ⟨.blank, hblank, ?_, hparsed⟩
    have hnon' : a.table.grammar.registry.nonEmptyOf k = some k' := hnon
    rw [Registry.tokenOf_of_some hnon']
    exact hk'
  | empty hempty => exact .inr ⟨hempty, rfl⟩

/-- A chain of terms that were taken is cut text that spells them. -/
theorem exists_cut (hl : a.Lexicon literals) {tokens : List (Executor.Ahead σ)}
    (h : a.executor.Chain w c tokens last)
    (hend : ∀ token ∈ tokens, token.terminal ≠ .endOfInput) :
    ∃ ts spelling, a.Cut w c ts last ∧
      a.table.grammar.registry.Spelt (tokens.map (·.terminal)) spelling ∧
      a.Handles ts spelling := by
  induction h with
  | nil c => exact ⟨[], [], .nil c, .nil, .nil⟩
  | @cons c last token tokens htake _ ih =>
    obtain ⟨hne, hend⟩ := List.forall_mem_cons.1 hend
    obtain ⟨ts, spelling, hcut, hspelt, hhandles⟩ := ih hend
    rcases hl.taken htake hne with ⟨t, ht, hk, hparsed⟩ | ⟨hempty, hcursor⟩
    · exact ⟨t :: ts, _, .cons ht hparsed hcut, .token hspelt, .cons hk hhandles⟩
    · rw [hcursor] at hcut
      exact ⟨ts, spelling, hcut, .empty hempty hspelt, hhandles⟩

end Lexicon

end Assembled

/-- The terminals spell a word that is derivable from the nonterminal of an entry: in the word a
possibly empty terminal stands for nothing, or for its non-empty variant. -/
def Assembled.Declares (a : Assembled) (entry : Entry) (ts : List Terminal) : Prop :=
  ∃ start word spelling,
    a.table.grammar.registry.find? [Catalogue.entryName entry] = some start ∧
    a.table.grammar.Derives [start] word ∧ (∀ t ∈ word, t.isTerminal) ∧
    a.table.grammar.registry.Spelt word spelling ∧ a.Handles ts spelling

namespace Catalogue

variable {c : Catalogue} {entry : Entry} {a : Assembled} {known : List String}
  {ds : List (Nat × Declaration)} {start : String}

/-- The end of input is in no right-hand side. -/
theorem Assembles.end_not_mem_rhs (h : c.Assembles entry a known ds start) {rule : Rule}
    (hrule : rule ∈ a.table.grammar.rules) : .endOfInput ∉ rule.rhs := by
  obtain ⟨augmented, rules, hrules, -, hstart, hrows⟩ := h.rules
  intro hmem
  rw [hrules] at hrule
  rcases List.mem_cons.1 hrule with rfl | hrule
  · exact Registry.find?_ne_end (List.mem_singleton.1 hmem ▸ hstart.1)
  · obtain ⟨row, -, -, hrhs⟩ := hrows rule hrule
    obtain ⟨e, -, hstands⟩ := exists_of_forall₂ hrhs hmem
    cases e with
    | nonTerminal name => exact Registry.find?_ne_end hstands.1
    | terminal group => exact Registry.find?_ne_end hstands.1
    | _ => exact hstands

/-- The end of input is in no word. -/
theorem Assembles.end_not_mem (h : c.Assembles entry a known ds start) {word : List Handle}
    (hword : a.table.grammar.Derives [a.table.grammar.start] word) : .endOfInput ∉ word := by
  obtain ⟨-, -, -, -, hstart, -⟩ := h.rules
  induction hword with
  | refl => exact fun hmem => Registry.find?_ne_end (List.mem_singleton.1 hmem ▸ hstart.1)
  | tail _ hstep ih =>
    obtain ⟨rule, hrule, before, after, rfl, rfl⟩ := hstep
    rw [List.mem_append, List.mem_cons, not_or, not_or] at ih
    rw [List.mem_append, List.mem_append, not_or, not_or]
    exact ⟨⟨ih.1, h.end_not_mem_rhs hrule⟩, ih.2.2⟩

/-- The start symbol of the grammar is the nonterminal of the entry. -/
theorem Assembles.find?_entryName (h : c.Assembles entry a known ds start) :
    a.table.grammar.registry.find? [entryName entry] = some a.table.grammar.start := by
  obtain ⟨-, -, -, -, hstart, -⟩ := h.rules
  rw [← entryName_of_startOf h.entered]
  exact hstart.1

section

variable {σ : Type} {s : σ} {w : Window} {p : Position}

/-- What is parsed is declared. -/
theorem Assembles.exists_declared (h : c.Assembles entry a known ds start)
    (hinvalid : a.config.invalid = none) {parsed : Parsed σ}
    (hreturns : a.executor.Returns s w p (some parsed)) :
    ∃ ts last, a.Cut w ⟨s, p⟩ ts last ∧ w.isDone last.position = .ok true ∧
      a.Declares entry ts := by
  have hl := h.lexicon
  obtain ⟨limit, hresult⟩ := Executor.returns_iff.1 hreturns
  obtain ⟨d, last, ending, hfits, hchain, hreads, -⟩ :=
    (Executor.consistent_start s p).run h.wellFormed h.table hinvalid hresult
  have hword := hfits.derives
  obtain ⟨ts, spelling, hcut, hspelt, hhandles⟩ := hl.exists_cut hchain fun token htoken heq =>
    h.end_not_mem hword (heq ▸ List.mem_map_of_mem htoken)
  have hdone : w.isDone last.position = .ok true := by
    obtain ⟨t, -, hend, hresult⟩ := hl.of_reads hreads
    cases Registry.handleOf_injective hend Registry.handleOf_end
    exact Terminal.end_result hresult
  have hterminals : ∀ t ∈ d.tokens.map (·.terminal), t.isTerminal := by
    intro t ht
    obtain ⟨token, htoken, rfl⟩ := List.mem_map.1 ht
    exact hfits.terminals token htoken
  exact ⟨ts, last, hcut, hdone, a.table.grammar.start, _, spelling, h.find?_entryName, hword,
    hterminals, hspelt, hhandles⟩

/-- What is declared is parsed, if nothing is left undecided. -/
theorem Assembles.exists_parsed (h : c.Assembles entry a known ds start)
    (hconflicts : a.conflicts = [])
    (hspaces : ∀ d ∈ c.declarations, d.fragments.IsChain fun f f' => ¬ (f.isSpace ∧ f'.isSpace))
    (hw : w.Legible) (hp : w.Boundary p) {ts : List Terminal} {last : Cursor σ}
    (hcut : a.Cut w ⟨s, p⟩ ts last) (hdone : w.isDone last.position = .ok true)
    (hdeclares : a.Declares entry ts) : ∃ parsed, a.executor.Returns s w p (some parsed) := by
  obtain ⟨start', word, spelling, hstart, hword, hterminals, hspelt, hhandles⟩ := hdeclares
  cases h.find?_entryName.symm.trans hstart
  obtain ⟨tokens, ending, hhandles', hlaid⟩ := h.lexicon.exists_laid hw hcut hp hdone
  cases hhandles.unique hhandles'
  exact (h.decisive hconflicts).returns h.fresh hterminals hword (h.separate hspaces hword)
    hspelt hlaid

end

/-- **The declared language.** If assembling declarations without two spaces in a row reports no
conflict, then from a place between characters of a text the parser gives a result exactly if the
text from there can be cut into tokens, up to the blank rest, that spell a word derivable from the
nonterminal of the entry. -/
theorem parses_iff_declared {config : ExecutorConfig} {sink sink' : Sink}
    (h : (c.assemble entry config sink).result = .ok (sink', .ok a))
    (hinvalid : config.invalid = none) (hconflicts : a.conflicts = [])
    (hspaces : ∀ d ∈ c.declarations, d.fragments.IsChain fun f f' => ¬ (f.isSpace ∧ f'.isSpace))
    (source : Source) {p : Position} (hp : (Window.ofSource source).Boundary p) {σ : Type} (s : σ) :
    (∃ parsed, a.executor.Returns s (.ofSource source) p (some parsed)) ↔
      ∃ ts last, a.Cut (.ofSource source) ⟨s, p⟩ ts last ∧
        (Window.ofSource source).isDone last.position = .ok true ∧ a.Declares entry ts := by
  obtain ⟨hconfig, known, ds, start, hparts⟩ := assembles_of_assemble h
  constructor
  · rintro ⟨parsed, hreturns⟩
    rw [← hconfig] at hinvalid
    exact hparts.exists_declared hinvalid hreturns
  · rintro ⟨ts, last, hcut, hdone, hdeclares⟩
    exact hparts.exists_parsed hconflicts hspaces (Window.legible_ofSource source) hp hcut hdone
      hdeclares

/-- A sign, a blank and a variable spell a word of the sample's language, which two signs do not. -/
theorem negations_declared : ∃ sink a,
    (negations.assemble .any {} {}).result = .ok (sink, .ok a) ∧ a.conflicts = [] ∧
    (∃ ts last, a.Cut (.ofSource (.ofText "- x")) ⟨(), .zero⟩ ts last ∧
      (Window.ofSource (.ofText "- x")).isDone last.position = .ok true ∧ a.Declares .any ts) ∧
    ¬ ∃ ts last, a.Cut (.ofSource (.ofText "- -")) ⟨(), .zero⟩ ts last ∧
      (Window.ofSource (.ofText "- -")).isDone last.position = .ok true ∧ a.Declares .any ts := by
  obtain ⟨sink, a, h, hconflicts, hparses, hfails⟩ := exists_negations
  have hspaces : ∀ d ∈ negations.declarations,
      d.fragments.IsChain fun f f' => ¬ (f.isSpace ∧ f'.isSpace) := by decide
  have hp : ∀ text, (Window.ofSource (.ofText text)).Boundary .zero := by
    intro text hlt
    obtain ⟨line, hline⟩ := Window.legible_ofSource _ 0 hlt
    exact ⟨line, hlt, line, hline, dropBytes_zero line⟩
  refine ⟨sink, a, h, hconflicts, (parses_iff_declared h rfl hconflicts hspaces _ (hp _) ()).1 ?_,
    fun hdeclared => ?_⟩
  · obtain ⟨parsed, hparsed⟩ := hparses
    exact ⟨parsed, Executor.returns_iff.2 ⟨_, hparsed⟩⟩
  · obtain ⟨parsed, n, hn⟩ :=
      (parses_iff_declared h rfl hconflicts hspaces _ (hp _) ()).2 hdeclared
    obtain ⟨m, hm⟩ := Executor.returns_iff.2 ⟨_, hfails⟩
    cases (hn (max n m) (by omega)).symm.trans (hm (max n m) (by omega))

end Catalogue

end Mixfix
