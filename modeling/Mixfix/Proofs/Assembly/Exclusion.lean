import Mixfix.Proofs.Assembly.Lexicon
import Mixfix.Proofs.Executor.Clashes

/-!
# Assembled parsers tell their terminals apart

The plans of an assembled parser read one terminal of each class, and none that is possibly empty.
Since the terminals exclude each other, no run ever finds two of them at one place.

* `Assembled.Lexicon.classes`: the classes of a read.
* `Assembled.Lexicon.no_clash`: a run does not clash.
* `Catalogue.terminals_told_apart`: so it is for every assembled parser.
* `Catalogue.negations`: a sample with an optional blank.
-/

namespace Mixfix

/-! ### Events of terminals -/

namespace Terminal

theorem bind_events_nil {ε α β : Type} {x : Traced ε α} {f : α → Traced ε β}
    (hx : x.events = []) (hf : ∀ a, (f a).events = []) : (x >>= f).events = [] := by
  rw [List.eq_nil_iff_forall_not_mem]
  intro event h
  rcases Traced.mem_bind_events h with h | ⟨a, -, h⟩
  · rw [hx] at h
    cases h
  · rw [hf a] at h
    cases h

variable {σ : Type}

theorem token_events (lexer : Lexer) (tag : String) (s : σ) (w : Window) (p : Position) :
    (Parser.token lexer tag s w p).events = [] := by
  unfold Parser.token
  split
  · refine bind_events_nil rfl fun line => bind_events_nil rfl fun n => ?_
    cases n <;> rfl
  · rfl

theorem blanks_events (s : σ) (w : Window) (p : Position) :
    (blanks s w p).events = [] := by
  unfold blanks
  split
  · refine bind_events_nil rfl fun stop => ?_
    split
    · rfl
    · refine bind_events_nil rfl fun done => ?_
      split <;> rfl
  · rfl

/-- The parsers of terminals report nothing. -/
theorem parser_events (all : List String) (t : Terminal) (s : σ) (w : Window) (p : Position) :
    (t.parser all s w p).events = [] := by
  cases t with
  | literal text => exact token_events _ _ s w p
  | identifier => exact token_events _ _ s w p
  | blank => exact blanks_events s w p
  | optionalBlank =>
    refine bind_events_nil (blanks_events s w p) fun answer => ?_
    cases answer with
    | none =>
      refine bind_events_nil rfl fun answer => ?_
      cases answer <;> rfl
    | some parsed => rfl
  | endOfInput =>
    refine bind_events_nil rfl fun done => ?_
    split <;> rfl

end Terminal

namespace Assembled

variable {a : Assembled} {literals : List String} {σ : Type}

theorem lookup_executor (h : Handle) :
    (a.executor (σ := σ)).terminals.lookup h =
      (a.terminals.lookup h).map fun t => t.parser a.literals := by
  rw [executor]
  induction a.terminals with
  | nil => rfl
  | cons e l ih =>
    rw [List.map_cons, List.lookup_cons, List.lookup_cons, ih]
    cases h == e.1 <;> rfl

namespace Lexicon

/-- A terminal is read by its parser. -/
theorem of_reads (hl : a.Lexicon literals) {w : Window} {c : Cursor σ} {h : Handle}
    {parsed : Parsed σ} (hr : a.executor.Reads w c h parsed) :
    ∃ t ∈ Terminal.every literals, a.table.grammar.registry.handleOf t = some h ∧
      (t.parser (Terminal.allLiterals literals) c.user w c.position).result =
        .ok (some parsed) := by
  obtain ⟨parser, hparser, hresult⟩ := hr
  rw [lookup_executor] at hparser
  obtain ⟨t, ht, rfl⟩ := Option.map_eq_some_iff.1 hparser
  obtain ⟨hevery, hhandle⟩ := hl.lookup.1 ht
  rw [hl.literals_eq] at hresult
  exact ⟨t, hevery, hhandle, hresult⟩

/-- The terminals that are not possibly empty are told apart. -/
theorem mem_told_of_nonEmptyOf (hl : a.Lexicon literals) {t : Terminal} {h : Handle}
    (ht : t ∈ Terminal.every literals) (hh : a.table.grammar.registry.handleOf t = some h)
    (hn : a.table.grammar.registry.nonEmptyOf h = none) : t ∈ Terminal.told literals := by
  rcases Terminal.mem_every.1 ht with rfl | ht
  · obtain ⟨k, hk⟩ := hl.exists_handle .blank (by simp)
    rw [hl.nonEmptyOf.2 ⟨hh, hk⟩] at hn
    cases hn
  · exact ht

/-- Each class of a read has one terminal, which is not possibly empty. -/
theorem classes (hl : a.Lexicon literals) (hg : a.table.grammar.WellFormed)
    (ht : a.table = Table.ofGrammar a.table.grammar) {i : Nat} {plan : Plan}
    (hplan : a.table.plan? i = some plan) {node : List (List Handle)} (hn : node ∈ plan.reads) :
    ∃ hs : List Handle, hs.Nodup ∧ node = hs.map ([·]) ∧ ∀ h ∈ hs,
      a.table.grammar.registry.nonEmptyOf h = none ∧
        ∃ t ∈ Terminal.told literals, a.table.grammar.registry.handleOf t = some h := by
  rw [ht] at hplan
  obtain ⟨s, hs, rfl⟩ := Table.plan?_ofGrammar.1 hplan
  obtain ⟨ts, hts, rfl⟩ := Automaton.mem_of_mem_reads (Automaton.canonical hg) hs
    (P := fun h => ∃ t ∈ Terminal.every literals, a.table.grammar.registry.handleOf t = some h)
    hl.used (fun _ hu => ⟨.blank, by simp, (hl.nonEmptyOf.1 hu).2⟩)
    hn
  have htold : ∀ h ∈ ts, a.table.grammar.registry.nonEmptyOf h = none ∧
      ∃ t ∈ Terminal.told literals, a.table.grammar.registry.handleOf t = some h := by
    intro h hh
    obtain ⟨⟨t, ht, hhandle⟩, hnone⟩ := hts h hh
    exact ⟨hnone, t, hl.mem_told_of_nonEmptyOf ht hhandle hnone, hhandle⟩
  refine ⟨Ascending.ofList ts, (Ascending.sorted_ofList ts).nodup,
    Plan.classes_of_distinct fun h hh k hk hne => ?_,
    fun h hh => htold h (Ascending.mem_ofList.1 hh)⟩
  obtain ⟨-, t, ht, hth⟩ := htold h hh
  obtain ⟨-, u, hu, huk⟩ := htold k hk
  refine hl.distinct ht hu (fun heq => hne ?_) hth huk
  subst heq
  exact Option.some.inj (hth.symm.trans huk)

/-- No run finds two terminals at one place. -/
theorem no_clash (hl : a.Lexicon literals) (hg : a.table.grammar.WellFormed)
    (ht : a.table = Table.ofGrammar a.table.grammar) {limit : Nat} {s : σ} {w : Window}
    {p q : Position} {x y : Handle} : .clash x y q ∉ (a.executor.parser limit s w p).events := by
  have hsilent : ¬ a.executor.Reports (σ := σ) w (.clash x y q) := by
    rintro ⟨h, parser, hparser, c, hevent⟩
    rw [lookup_executor] at hparser
    obtain ⟨t, -, rfl⟩ := Option.map_eq_some_iff.1 hparser
    rw [Terminal.parser_events] at hevent
    cases hevent
  intro hevent
  rcases Executor.run_clash hevent with h | ⟨i, plan, hplan, node, hnode, s', p', hscan⟩
  · exact hsilent h
  · obtain ⟨hs, hnodup, rfl, htold⟩ := hl.classes hg ht hplan hnode
    rw [← List.flatMap_def, List.flatMap_singleton'] at hscan
    rcases Executor.scan_clash (by nofun) hnodup hscan with
      h | ⟨h, k, parsed, parsed', hne, hh, hk, hreads, hreads'⟩
    · exact hsilent h
    · have hh := hh.resolve_right fun ⟨_, h, _⟩ => nomatch h
      obtain ⟨t, ht, hth, hresult⟩ := hl.of_reads hreads
      obtain ⟨u, hu, huk, hresult'⟩ := hl.of_reads hreads'
      have htu := Terminal.exclusive hl.solid
        (hl.mem_told_of_nonEmptyOf ht hth (htold h hh).1)
        (hl.mem_told_of_nonEmptyOf hu huk (htold k hk).1) hresult hresult'
      subst htu
      exact hne (Option.some.inj (hth.symm.trans huk))

end Lexicon

end Assembled

namespace Catalogue

/-- **Terminals are told apart.** Among solid literals with the parentheses, the variable, the
blanks and the end of the window, at most one succeeds at a place.  Each class of each read of an
assembled parser has one terminal, which is not possibly empty; and no run finds two terminals at
one place. -/
theorem terminals_told_apart :
    (∀ literals : List String, (∀ text ∈ literals, Terminal.Solid text) →
      ∀ {σ : Type} (w : Window) (p : Position) (s s' : σ), ∀ t ∈ Terminal.told literals,
        ∀ u ∈ Terminal.told literals, ∀ parsed parsed',
        (t.parser (Terminal.allLiterals literals) s w p).result = .ok (some parsed) →
        (u.parser (Terminal.allLiterals literals) s' w p).result = .ok (some parsed') → t = u) ∧
    ∀ (c : Catalogue) (entry : Entry) (config : ExecutorConfig) (sink sink' : Sink) (a : Assembled),
      (c.assemble entry config sink).result = .ok (sink', .ok a) →
      (∀ row ∈ a.table.rows, ∀ node ∈ row.plan.reads, ∀ cls ∈ node,
        ∃ t, cls = [t] ∧ a.table.grammar.registry.nonEmptyOf t = none) ∧
      ∀ {σ : Type} (limit : Nat) (s : σ) (w : Window) (p : Position) (x y : Handle) (q : Position),
        .clash x y q ∉ (a.executor.parser limit s w p).events := by
  refine ⟨fun literals hsolid σ w p s s' t ht u hu parsed parsed' h h' =>
    Terminal.exclusive hsolid ht hu h h', fun c entry config sink sink' a h => ?_⟩
  obtain ⟨-, known, ds, start, hparts⟩ := assembles_of_assemble h
  have hl := hparts.lexicon
  refine ⟨fun row hrow node hnode cls hcls => ?_, fun limit s w p x y q =>
    hl.no_clash hparts.wellFormed hparts.table⟩
  obtain ⟨i, hi⟩ := List.mem_iff_getElem?.1 hrow
  have hplan : a.table.plan? i = some row.plan := by
    rw [Table.plan?, hi]
    rfl
  obtain ⟨hs, -, rfl, htold⟩ := hl.classes hparts.wellFormed hparts.table hplan hnode
  obtain ⟨t, ht, rfl⟩ := List.mem_map.1 hcls
  exact ⟨t, rfl, (htold t ht).1⟩

/-- A sign before a variable, with blanks allowed between them. -/
def negations : Catalogue where
  categories := [("arith", none)]
  declarations := [⟨"arith", "neg", [.text "-", .space true, .bound "x"], none⟩]

/-- The sample assembles, every state is decided, and a sign must be followed by a variable. -/
theorem exists_negations : ∃ sink a,
    (negations.assemble .any {} {}).result = .ok (sink, .ok a) ∧ a.conflicts = [] ∧
      (∃ parsed, (a.executor.parser 20 () (.ofSource (.ofText "- x")) .zero).result =
        .ok (some parsed)) ∧
      (a.executor.parser 20 () (.ofSource (.ofText "- -")) .zero).result = .ok none := by
  have h : ((negations.assemble .any {} {}).result.toOption.any fun r =>
      r.2.toOption.any fun a => a.conflicts.isEmpty &&
        (a.executor.parser 20 () (.ofSource (.ofText "- x")) .zero).result.toOption.join.isSome &&
        ((a.executor.parser 20 () (.ofSource (.ofText "- -")) .zero).result.toOption.any
          Option.isNone)) = true := by decide +kernel
  simp only [Option.any_eq_true, Bool.and_eq_true, List.isEmpty_iff, Option.isSome_iff_exists,
    Option.join_eq_some_iff, except_toOption_eq_some, Option.isNone_iff_eq_none] at h
  obtain ⟨⟨sink, _⟩, hassemble, a, ha, ⟨hconflicts, hparsed⟩, _, hnone, rfl⟩ := h
  cases ha
  exact ⟨sink, a, hassemble, hconflicts, hparsed, hnone⟩

/-- Where a text begins with two signs, the literal of one sign does not match, nor does anything
but the literal of two; and no run of the sample's parser clashes. -/
theorem negations_told_apart :
    (∃ parsed, ((Terminal.literal "--").parser (Terminal.allLiterals ["-", "--"]) ()
        (.ofSource (.ofText "--x")) .zero).result = .ok (some parsed) ∧
      ∀ u ∈ Terminal.told ["-", "--"], ∀ parsed',
        (u.parser (Terminal.allLiterals ["-", "--"]) () (.ofSource (.ofText "--x")) .zero).result =
          .ok (some parsed') → Terminal.literal "--" = u) ∧
    ∃ sink a, (negations.assemble .any {} {}).result = .ok (sink, .ok a) ∧
      (∀ row ∈ a.table.rows, ∀ node ∈ row.plan.reads, ∀ cls ∈ node,
        ∃ t, cls = [t] ∧ a.table.grammar.registry.nonEmptyOf t = none) ∧
      ∀ x y q, .clash x y q ∉
        (a.executor.parser 100 () (.ofSource (.ofText "--x")) .zero).events := by
  obtain ⟨hterminals, hassembled⟩ := terminals_told_apart
  obtain ⟨sink, a, h, -, -, -⟩ := exists_negations
  obtain ⟨hclasses, hruns⟩ := hassembled _ _ _ _ _ _ h
  have hsolid : ∀ text ∈ ["-", "--"], Terminal.Solid text := by
    intro text ht
    rw [List.mem_cons, List.mem_singleton] at ht
    rcases ht with rfl | rfl <;> exact Terminal.solid_of_all (by decide) (by decide)
  refine ⟨⟨_, rfl, fun u hu parsed' h' => ?_⟩, sink, a, h, hclasses, hruns _ _ _ _⟩
  exact hterminals _ hsolid _ _ () () _ (by decide) u hu _ _ rfl h'

end Catalogue

end Mixfix
