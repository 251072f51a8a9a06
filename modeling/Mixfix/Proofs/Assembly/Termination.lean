import Mixfix.Proofs.Assembly.Alternatives
import Mixfix.Proofs.Assembly.Language
import Mixfix.Proofs.Assembly.Totality
import Mixfix.Proofs.Executor.Termination

/-!
# Assembled parsers end

The rules of declared syntax are laddered.  A usable declaration has no space at either end and is
more than a slot, so that an alternative with a single symbol leads from terminals to forms, from
forms to the forms of a category, and from these to terms.  What a terminal takes moves on in the
text, except for blanks that may be missing.

* `Terminal.onward`: what a terminal takes moves on.
* `Catalogue.Assembles.layer_lt`: an alternative with a single symbol climbs.
* `Catalogue.Assembles.laddered`: the rules are laddered.
* `Catalogue.assembled_runs_end`: every run of an assembled parser ends, without a fault.
-/

namespace Mixfix

/-! ### Terminals move on -/

namespace Terminal

open Window

variable {σ : Type} {all : List String} {s : σ} {w : Window} {p : Position} {parsed : Parsed σ}

/-- Bytes that are taken on a line move on. -/
theorem onward_of_pos (hp : p.line < w.count) {n : Nat} (hn : 0 < n) :
    w.Onward p ⟨p.line, p.offset + n⟩ :=
  ⟨Position.lt_iff.2 (.inr ⟨rfl, Nat.lt_add_of_pos_right hn⟩), hp⟩

theorem onward_literal {text : String} (htext : Solid text)
    (h : ((literal text).parser all s w p).result = .ok (some parsed)) :
    w.Onward p parsed.stop := by
  obtain ⟨hlt, line, n, -, hn, hstop⟩ := token_result h
  obtain ⟨rest, hrest⟩ := dropBytes_of_literalLexer hn
  rw [lex_literalLexer hrest] at hn
  split at hn
  · cases hn
    rw [hstop]
    exact onward_of_pos hlt (byteSize_pos fun hnil => htext.1 (String.toList_eq_nil_iff.1 hnil))
  · cases hn

theorem onward_identifier (h : (identifier.parser all s w p).result = .ok (some parsed)) :
    w.Onward p parsed.stop := by
  obtain ⟨hlt, line, n, -, hn, hstop⟩ := token_result h
  obtain ⟨rest, hrest⟩ := dropBytes_of_variableLexer hn
  rw [lex_variableLexer hrest] at hn
  split at hn
  · cases hn
  · cases rest with
    | nil => cases hn
    | cons c rest =>
      rw [identifierAt] at hn
      split at hn
      · cases hn
        rw [hstop]
        exact onward_of_pos hlt (byteSize_pos (List.cons_ne_nil c _))
      · cases hn

theorem onward_blank (hw : w.Legible) (hp : w.Boundary p)
    (h : (blank.parser all s w p).result = .ok (some parsed)) : w.Onward p parsed.stop := by
  obtain ⟨hlt, hend, hne, -⟩ := blank_result h
  obtain ⟨rest, hrest⟩ := hp hlt
  have hhere : ∀ {n}, ⟨p.line, p.offset + n⟩ = parsed.stop → w.Onward p parsed.stop := by
    intro n hn
    rw [← hn]
    refine onward_of_pos hlt (Nat.pos_of_ne_zero fun hzero => hne ?_)
    rw [← hn, hzero]
    rfl
  rw [blanksEnd_eq hrest] at hend
  split at hend
  · rcases skipBlank_spec hw (p.line + 1) with ⟨hnone, -⟩ | ⟨next, hnext, hle, hfilled, -⟩
    · rw [hnone] at hend
      exact hhere (Except.ok.inj hend)
    · -- The blanks go on to a later line.
      rw [hnext] at hend
      have hend : (do return ⟨next, ← w.indentation next⟩ : Except Fault Position) =
          .ok parsed.stop := hend
      obtain ⟨n, -, hend⟩ := except_bind_eq_ok.1 hend
      rw [← Except.ok.inj hend]
      exact ⟨Position.lt_iff.2 (.inl hle), hfilled.lt_count⟩
  · exact hhere (Except.ok.inj hend)

/-- What a terminal takes moves on in the text. -/
theorem onward {literals : List String} (hsolid : ∀ text ∈ literals, Solid text) (hw : w.Legible)
    (hp : w.Boundary p) {t : Terminal} (ht : t ∈ told literals) (hne : t ≠ .endOfInput)
    (h : (t.parser all s w p).result = .ok (some parsed)) : w.Onward p parsed.stop := by
  rcases mem_told ht with (rfl | ⟨text, htext, rfl⟩) | rfl | rfl
  · exact onward_identifier h
  · exact onward_literal (solid_of_mem_allLiterals hsolid htext) h
  · exact onward_blank hw hp h
  · exact absurd rfl hne

end Terminal

/-! ### The rules are laddered -/

namespace Catalogue

@[simp] theorem layerOf_key (t : Terminal) : layerOf t.key = 0 := by
  cases t with
  | literal text => simp [layerOf, Terminal.key, Terminal.toList_literalKey, anyName,
      ← String.toList_inj]
  | _ => rfl

/-- A usable declaration is more than a slot. -/
theorem not_bare_of_objection {d : Declaration} {known : List String}
    (h : d.objection known = none) (above : Option String) : d.fragments ≠ [.free above] := by
  intro hbare
  simp [Declaration.objection, hbare, Fragment.text?, Fragment.isSpace] at h

/-- The layer of the symbol that a handle stands for. -/
def layer (r : Registry) (X : Handle) : Nat :=
  match r.lookup? X with
  | some [name] => layerOf name
  | _ => 0

theorem layer_of_find? {r : Registry} {name : String} {X : Handle}
    (h : r.find? [name] = some X) : layer r X = layerOf name := by
  rw [layer, Registry.lookup?_of_find? h]

theorem layer_le (r : Registry) (X : Handle) : layer r X ≤ 3 := by
  rw [layer]
  split
  · exact layerOf_le _
  · exact Nat.zero_le 3

variable {c : Catalogue} {entry : Entry} {a : Assembled} {known : List String}
  {ds : List (Nat × Declaration)} {start : String}

theorem Assembles.layer_term (h : c.Assembles entry a known ds start) {t : Terminal}
    (ht : t ∈ Terminal.every (literalsOf ds)) (hne : t ≠ .endOfInput) {X : Handle}
    (hs : a.table.grammar.registry.Stands (termExpr t) X) :
    layer a.table.grammar.registry X = 0 := by
  have hfind := h.handleOf_of_stands ht hne hs
  rw [Registry.handleOf_ne hne] at hfind
  rw [layer_of_find? hfind, layerOf_key]

/-- Where a usable declaration has a single fragment, that is a terminal. -/
theorem Assembles.layer_fragment (h : c.Assembles entry a known ds start)
    {d : Nat × Declaration} (hd : d ∈ ds) {f : Fragment} (hf : d.2.fragments = [f]) {X : Handle}
    (hs : a.table.grammar.registry.Stands (fragmentExpr f) X) :
    layer a.table.grammar.registry X = 0 := by
  have hmem : fragmentExpr f ∈ d.2.fragments.map fragmentExpr := by rw [hf]; simp
  rcases (Row.form hd).part hmem with ⟨name, hname, -⟩ | ⟨t, ht, hne, heq⟩
  · cases f with
    | free above => exact absurd hf (not_bare_of_objection (h.usable d hd).2 above)
    | space optional => cases optional <;> cases hname
    | text text => cases hname
    | bound name => cases hname
  · exact h.layer_term ht hne (heq ▸ hs)

/-- An alternative with a single symbol leads to a higher layer. -/
theorem Assembles.layer_lt (h : c.Assembles entry a known ds start) {name : String} {e : Expr}
    (hrow : Alternative entry a.priorities ds name [e]) {X : Handle}
    (hs : a.table.grammar.registry.Stands e X) :
    layer a.table.grammar.registry X < layerOf name := by
  generalize hrow' : [e] = row at hrow
  cases hrow with
  | plain hname he =>
    cases hrow'
    have hlt : 2 ≤ layerOf name := by cases hname <;> simp
    rw [termAlternatives, List.mem_cons, List.mem_singleton] at he
    rcases he with rfl | rfl
    · rw [h.layer_term (t := .identifier) (by simp) (by decide) hs]
      omega
    · rw [layer_of_find? hs.1, layerOf_parens]
      exact hlt
  | parens => cases hrow'
  | @form d hd =>
    obtain ⟨f, hf, rfl⟩ := List.map_eq_singleton_iff.1 hrow'.symm
    rw [h.layer_fragment hd hf hs, layerOf_form]
    exact Nat.one_pos
  | own hd =>
    cases hrow'
    rw [layer_of_find? hs.1, layerOf_form, layerOf_atomic]
    exact Nat.lt_succ_self 1
  | any hcategory =>
    cases hrow'
    rw [layer_of_find? hs.1, layerOf_atomic, layerOf_any]
    exact Nat.lt_succ_self 2
  | above hlower hhigher hpopulated =>
    cases hrow'
    rw [layer_of_find? hs.1, layerOf_atomic, layerOf_greater]
    exact Nat.lt_succ_self 2

/-- A symbol that is no space is not possibly empty. -/
theorem Assembles.nonEmptyOf_eq_none (h : c.Assembles entry a known ds start) {X : Handle}
    (hX : a.table.grammar.registry.isSpacing X = false) :
    a.table.grammar.registry.nonEmptyOf X = none := by
  cases hnon : a.table.grammar.registry.nonEmptyOf X with
  | none => rfl
  | some u =>
    rw [Registry.isSpacing_of_handleOf (h.lexicon.nonEmptyOf.1 hnon).1] at hX
    cases hX

/-- **The rules of an assembled grammar are laddered.** -/
theorem Assembles.laddered (h : c.Assembles entry a known ds start) :
    a.table.grammar.Laddered (layer a.table.grammar.registry) 3 := by
  have hnon : ∀ {X : Handle}, X.isNonTerminal → a.table.grammar.registry.nonEmptyOf X = none :=
    fun hX => h.nonEmptyOf_eq_none (Registry.isSpacing_of_nonTerminal hX)
  obtain ⟨augmented, rules, hrules, -, hstart, hrows⟩ := h.rules
  have hends : ∀ rule ∈ a.table.grammar.rules,
      (∃ X, rule.rhs.head? = some X ∧ a.table.grammar.registry.nonEmptyOf X = none) ∧
      ∃ X, rule.rhs.getLast? = some X ∧ a.table.grammar.registry.nonEmptyOf X = none := by
    intro rule hrule
    rw [hrules] at hrule
    rcases List.mem_cons.1 hrule with rfl | hrule
    · exact ⟨⟨_, rfl, hnon hstart.2⟩, ⟨_, rfl, hnon hstart.2⟩⟩
    · obtain ⟨row, hrow, -, hrhs⟩ := hrows rule hrule
      obtain ⟨hhead, hlast⟩ := h.ends_row hrow hrhs
      rw [List.head?_map] at hhead
      rw [List.getLast?_map] at hlast
      obtain ⟨X, hX, hspace⟩ := Option.map_eq_some_iff.1 hhead
      obtain ⟨Y, hY, hspace'⟩ := Option.map_eq_some_iff.1 hlast
      exact ⟨⟨X, hX, h.nonEmptyOf_eq_none hspace⟩, ⟨Y, hY, h.nonEmptyOf_eq_none hspace'⟩⟩
  exact
    { rank_le := layer_le _
      head := fun rule hrule => (hends rule hrule).1
      last := fun rule hrule => (hends rule hrule).2
      lhs := fun rule hrule => hnon (h.wellFormed.lhs_nonTerminal rule hrule)
      climbs := fun rule hrule X hX => by
        obtain ⟨name, row, hrow, hlhs, hrhs⟩ := h.alternatives hrule
        rw [hX] at hrhs
        obtain ⟨e, _, hs, hnil, rfl⟩ := List.forall₂_cons_right_iff.1 hrhs
        cases hnil
        rw [layer_of_find? hlhs]
        exact h.layer_lt hrow hs
      endless := fun rule hrule => h.end_not_mem_rhs hrule }

/-- The terminals of the rules are bound, and so is the end of input. -/
theorem Assembles.binds_used (h : c.Assembles entry a known ds start) {σ : Type} {k : Handle}
    (hk : k ∈ Handle.endOfInput :: a.table.grammar.terminals) :
    (a.executor (σ := σ)).Binds k := by
  obtain ⟨t, -, hlookup⟩ := h.exists_parser hk
  rw [Executor.Binds, hlookup]
  rfl

/-- What a plan asks for is bound. -/
theorem Assembles.binds (h : c.Assembles entry a known ds start) {σ : Type} {i : Nat} {plan : Plan}
    {t : Handle} (hplan : a.table.plan? i = some plan) (hasks : plan.Asks t) :
    (a.executor (σ := σ)).Binds t := by
  have hl := h.lexicon
  refine Executor.binds_of_asks h.wellFormed h.table (fun k hk => h.binds_used hk)
    (fun {t u} _ hu => ?_) hplan hasks
  -- The one variant of a terminal is that of optional blanks.
  rw [Executor.Binds, Assembled.lookup_executor, hl.lookup.2 ⟨by simp, (hl.nonEmptyOf.1 hu).2⟩]
  rfl

/-- **The executor of an assembled parser is steady.** -/
theorem Assembles.steady (h : c.Assembles entry a known ds start) {σ : Type} {w : Window}
    (hw : w.Legible) : Executor.Steady a.table.grammar (a.executor (σ := σ)) w
      (layer a.table.grammar.registry) 3 := by
  have hl := h.lexicon
  exact
    { wellFormed := h.wellFormed
      table := h.table
      reserved := fun haugmented rule hrule => h.fresh haugmented rule (List.mem_of_mem_tail hrule)
      laddered := h.laddered
      kind := fun rule => h.exists_kind
      bound := fun hplan hasks =>
        hasks.elim (h.binds hplan) fun hend => h.binds_used (hend ▸ List.mem_cons_self)
      answers := fun {k parser} hparser c hc => by
        rw [Assembled.lookup_executor] at hparser
        obtain ⟨t, -, rfl⟩ := Option.map_eq_some_iff.1 hparser
        obtain ⟨answer, hanswer, hstop⟩ := Terminal.parser_answers hw hc t c.user
        exact ⟨answer, hanswer, fun parsed hparsed => (hstop parsed hparsed).2⟩
      moves := fun {c token} hc hend htake => by
        rcases hl.taken htake hend with ⟨t, ht, -, hparsed⟩ | ⟨hempty, hcursor⟩
        · obtain ⟨ht, hne⟩ := hl.mem_visible.1 ht
          exact .inr (Terminal.onward hl.solid hw hc ht hne hparsed)
        · exact .inl ⟨hempty, congrArg Cursor.position hcursor⟩ }

/-- **Assembled parsers end.** Take an assembled parser, whatever it does with conflicts and where
it cannot go on, and a place between characters of a text.  The parser gives an answer; however few
moves it is allowed, it stops with no other fault than having used them up.  Every step of its run
stays at its place or moves on in the text; and between two steps that move on there are only so
many others, bounded by the depth of the stack and the longest right-hand side. -/
theorem assembled_runs_end {config : ExecutorConfig} {sink sink' : Sink}
    (h : (c.assemble entry config sink).result = .ok (sink', .ok a)) (source : Source)
    {p : Position} (hp : (Window.ofSource source).Boundary p) {σ : Type} (s : σ) :
    (∃ answer, a.executor.Returns s (.ofSource source) p answer) ∧
      (∀ {limit f}, (a.executor.parser limit s (.ofSource source) p).result = .error f →
        f = .exhausted) ∧
      ∀ m, a.executor.Steps (.ofSource source) p (Executor.start s p) m →
        (∀ m', (a.executor.step (.ofSource source) p m).result = .ok (.running m') →
          m'.position = m.position ∨ (Window.ofSource source).Onward m.position m'.position) ∧
        ∀ n m', a.executor.Idles (.ofSource source) p n m m' →
          n ≤ a.table.grammar.longest + 4 * m.nodes.length + 4 := by
  obtain ⟨-, known, ds, start, hparts⟩ := assembles_of_assemble h
  have hsteady := hparts.steady (σ := σ) (Window.legible_ofSource source)
  refine ⟨hsteady.exists_returns hp s, hsteady.eq_exhausted hp, fun m hm =>
    ⟨fun m' => hsteady.stays_or_moves hp hm, fun n m' hidles => ?_⟩⟩
  have hle := hsteady.idles_le hp hm hidles
  omega

/-- Sums of terms, with nothing said about which of two signs goes first. -/
def sums : Catalogue where
  categories := [("arith", none)]
  declarations :=
    [⟨"arith", "sum", [.free none, .space true, .text "+", .space true, .free none], none⟩]

/-- The window on a sum of three terms, over two lines. -/
def sumsWindow : Window := .ofSource (.ofText "x + y\n+ z")

/-- The sample's parser follows its guesses, and ends. -/
theorem sums_end : ∃ sink a,
    (sums.assemble .any { resolve := true } {}).result = .ok (sink, .ok a) ∧
      (∃ answer, a.executor.Returns () sumsWindow .zero answer) ∧
      (∀ {limit f}, (a.executor.parser limit () sumsWindow .zero).result = .error f →
        f = .exhausted) ∧
      ∀ m, a.executor.Steps sumsWindow .zero (Executor.start () .zero) m →
        (∀ m', (a.executor.step sumsWindow .zero m).result = .ok (.running m') →
          m'.position = m.position ∨ sumsWindow.Onward m.position m'.position) ∧
        ∀ n m', a.executor.Idles sumsWindow .zero n m m' →
          n ≤ a.table.grammar.longest + 4 * m.nodes.length + 4 := by
  obtain ⟨sink, a, h⟩ : ∃ sink a, (sums.assemble .any { resolve := true } {}).result =
      .ok (sink, .ok a) := sums.exists_assembled (by rintro _ ⟨⟩) _ _
  refine ⟨sink, a, h, assembled_runs_end h _ ?_ ()⟩
  intro hlt
  obtain ⟨line, hline⟩ := Window.legible_ofSource _ 0 hlt
  exact ⟨line, hlt, line, hline, dropBytes_zero line⟩

end Catalogue

end Mixfix
