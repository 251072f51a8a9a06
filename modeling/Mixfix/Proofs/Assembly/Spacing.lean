import Mixfix.Proofs.Assembly.Lexicon
import Mixfix.Proofs.Executor.Decisive

/-!
# Spaces in declared syntax

A usable declaration neither begins nor ends with a space. If no declaration has two spaces in a
row, then no word of the assembled grammar has, since every rule puts something else at both ends of
its right-hand side.

* `Spaced`: no space at either end, and no two in a row.
* `Grammar.Derives.spaced`: rewriting keeps rows spaced, if the right-hand sides are.
* `Catalogue.Assembles.separate`: the words of an assembled grammar are separate.
-/

namespace Mixfix

/-! ### Rows with spaces -/

/-- Goes past a mark for a space or for something else: a space may only come after something
else. -/
def passMark : (ready : Bool) → (space : Bool) → Option Bool
  | _, false => some true
  | true, true => some false
  | false, true => none

/-- The marks of a row with no space at either end, and no two in a row. -/
def Spaced (marks : List Bool) : Prop := marks.foldlM passMark false = some true

theorem map_eq_map_of_forall₂ {α β γ : Type} {R : α → β → Prop} {f : β → γ} {f' : α → γ}
    {as : List α} {bs : List β} (h : List.Forall₂ R as bs)
    (hf : ∀ {a b}, a ∈ as → R a b → f b = f' a) : bs.map f = as.map f' := by
  induction h with
  | nil => rfl
  | cons hab _ ih =>
    rw [List.map_cons, List.map_cons, hf List.mem_cons_self hab,
      ih fun ha => hf (List.mem_cons_of_mem _ ha)]

/-- A spaced row may come after a space or after something else. -/
theorem Spaced.foldlM_eq {marks : List Bool} (h : Spaced marks) (ready : Bool) :
    marks.foldlM passMark ready = some true := by
  cases marks with
  | nil => cases h
  | cons mark marks =>
    cases mark with
    | false => cases ready <;> exact h
    | true => cases h

theorem foldlM_of_ends {marks : List Bool} {ready : Bool}
    (hhead : ready = false → marks.head? = some false) (hlast : marks.getLast? = some false)
    (hchain : marks.IsChain fun x y : Bool => ¬ (x ∧ y)) :
    marks.foldlM passMark ready = some true := by
  induction marks generalizing ready with
  | nil => cases hlast
  | cons mark marks ih =>
    cases marks with
    | nil =>
      cases hlast
      cases ready <;> rfl
    | cons mark' marks =>
      obtain ⟨hpair, hrest⟩ := List.isChain_cons_cons.1 hchain
      rw [List.getLast?_cons_cons] at hlast
      cases mark with
      | false =>
        have hpassed := @ih true (fun h => nomatch h) hlast hrest
        cases ready <;> exact hpassed
      | true =>
        cases ready with
        | false => cases hhead rfl
        | true =>
          refine @ih false (fun _ => ?_) hlast hrest
          cases mark' with
          | false => rfl
          | true => exact absurd ⟨rfl, rfl⟩ hpair

/-- No two spaces in a row are passed. -/
theorem isChain_of_foldlM {marks : List Bool} {ready last : Bool}
    (h : marks.foldlM passMark ready = some last) : marks.IsChain fun x y : Bool => ¬ (x ∧ y) := by
  induction marks generalizing ready with
  | nil => exact .nil
  | cons mark marks ih =>
    rw [List.foldlM_cons] at h
    obtain ⟨ready', hready, h⟩ := Option.bind_eq_some_iff.1 h
    cases marks with
    | nil => exact .singleton mark
    | cons mark' marks =>
      refine List.isChain_cons_cons.2 ⟨?_, ih h⟩
      rintro ⟨rfl, rfl⟩
      -- After a space the next mark must not be one.
      cases ready with
      | false => cases hready
      | true =>
        cases hready
        cases h

/-- Something else than a space may be replaced by a spaced row. -/
theorem Spaced.replace {before middle after : List Bool} (h : Spaced (before ++ false :: after))
    (hm : Spaced middle) : Spaced (before ++ middle ++ after) := by
  rw [Spaced, List.foldlM_append] at h
  rw [Spaced, List.foldlM_append, List.foldlM_append]
  cases hbefore : before.foldlM passMark false with
  | none =>
    rw [hbefore] at h
    cases h
  | some ready =>
    rw [hbefore] at h
    show (middle.foldlM passMark ready >>= fun ready => after.foldlM passMark ready) = some true
    rw [hm.foldlM_eq]
    cases ready <;> exact h

/-- Rewriting keeps rows spaced. -/
theorem Grammar.Derives.spaced {g : Grammar} (space : Handle → Bool)
    (hrules : ∀ rule ∈ g.rules, space rule.lhs = false ∧ Spaced (rule.rhs.map space))
    {u v : List Handle} (h : g.Derives u v) (hu : Spaced (u.map space)) :
    Spaced (v.map space) := by
  induction h with
  | refl => exact hu
  | tail _ hstep ih =>
    obtain ⟨rule, hrule, before, after, rfl, rfl⟩ := hstep
    obtain ⟨hlhs, hrhs⟩ := hrules rule hrule
    simp only [List.map_append, List.map_cons, hlhs] at ih ⊢
    exact ih.replace hrhs

/-! ### Handles of spaces -/

namespace Registry

variable {r : Registry} {t : Terminal} {k : Handle}

/-- The handle stands for blanks, or for blanks that may be missing. -/
def isSpacing (r : Registry) (k : Handle) : Bool :=
  decide (r.handleOf .blank = some k ∨ r.handleOf .optionalBlank = some k)

theorem isSpacing_of_handleOf (h : r.handleOf t = some k) :
    r.isSpacing k = decide (t = .blank ∨ t = .optionalBlank) := by
  have hiff : ∀ {u : Terminal}, r.handleOf u = some k ↔ t = u := by
    intro u
    refine ⟨fun hu => handleOf_injective h hu, ?_⟩
    rintro rfl
    exact h
  rw [isSpacing]
  simp only [hiff]

theorem isSpacing_of_nonTerminal (h : k.isNonTerminal) : r.isSpacing k = false := by
  rw [isSpacing, decide_eq_false_iff_not]
  intro hk
  have hterminal : k.isTerminal := hk.elim isTerminal_of_handleOf isTerminal_of_handleOf
  rw [Handle.isNonTerminal_eq, hterminal] at h
  cases h

end Registry

/-! ### Assembled grammars -/

namespace Catalogue

variable {c : Catalogue} {entry : Entry} {a : Assembled} {known : List String}
  {ds : List (Nat × Declaration)} {start : String} {k : Handle}

/-- The handle of a terminal in a row. -/
theorem Assembles.handleOf_of_stands (h : c.Assembles entry a known ds start) {t : Terminal}
    (ht : t ∈ Terminal.every (literalsOf ds)) (hne : t ≠ .endOfInput)
    (hs : a.table.grammar.registry.Stands (termExpr t) k) :
    a.table.grammar.registry.handleOf t = some k := by
  rw [Registry.handleOf_ne hne, ← h.symbolsOfName_key ht]
  exact hs.1

theorem Assembles.isSpacing_term (h : c.Assembles entry a known ds start) {t : Terminal}
    (ht : t ∈ Terminal.every (literalsOf ds)) (hne : t ≠ .endOfInput)
    (hs : a.table.grammar.registry.Stands (termExpr t) k) :
    a.table.grammar.registry.isSpacing k = decide (t = .blank ∨ t = .optionalBlank) :=
  Registry.isSpacing_of_handleOf (h.handleOf_of_stands ht hne hs)

/-- The handle of a fragment is that of a space if the fragment is one. -/
theorem Assembles.isSpacing_fragment (h : c.Assembles entry a known ds start)
    {d : Nat × Declaration} (hd : d ∈ ds) {f : Fragment} (hf : f ∈ d.2.fragments)
    (hs : a.table.grammar.registry.Stands (fragmentExpr f) k) :
    a.table.grammar.registry.isSpacing k = f.isSpace := by
  cases f with
  | text text => exact h.isSpacing_term (literal_mem_every hd hf) (by rintro ⟨⟩) hs
  | space optional =>
    cases optional with
    | false => exact h.isSpacing_term (t := .blank) (by simp) (by decide) hs
    | true => exact h.isSpacing_term (t := .optionalBlank) (by simp) (by decide) hs
  | bound name => exact h.isSpacing_term (t := .identifier) (by simp) (by decide) hs
  | free above =>
    cases above <;> exact Registry.isSpacing_of_nonTerminal hs.2

/-- Where the spaces of a right-hand side are: there are none, there are two in parentheses, or they
are those of a usable declaration. -/
theorem Assembles.marks_row (h : c.Assembles entry a known ds start) {row : List Expr}
    (hrow : Row ds row) {rhs : List Handle}
    (hrhs : List.Forall₂ a.table.grammar.registry.Stands row rhs) :
    rhs.map a.table.grammar.registry.isSpacing = [false] ∨
      rhs.map a.table.grammar.registry.isSpacing = [false, true, false, true, false] ∨
      ∃ d ∈ ds, rhs.map a.table.grammar.registry.isSpacing = d.2.fragments.map (·.isSpace) := by
  have hterm : ∀ {t k}, t = .identifier ∨ t = .optionalBlank ∨ t = .literal "(" ∨
      t = .literal ")" → a.table.grammar.registry.Stands (termExpr t) k →
      a.table.grammar.registry.isSpacing k = decide (t = .blank ∨ t = .optionalBlank) := by
    intro t k ht hs
    refine h.isSpacing_term ?_ ?_ hs
    · rcases ht with rfl | rfl | rfl | rfl <;> simp [Terminal.allLiterals, Ascending.mem_ofList]
    · rcases ht with rfl | rfl | rfl | rfl <;> decide
  cases hrow with
  | identifier =>
    obtain ⟨k, _, hk, hnil, rfl⟩ := List.forall₂_cons_left_iff.1 hrhs
    cases hnil
    rw [List.map_singleton, hterm (.inl rfl) hk]
    exact .inl rfl
  | name _ =>
    obtain ⟨k, _, hk, hnil, rfl⟩ := List.forall₂_cons_left_iff.1 hrhs
    cases hnil
    rw [List.map_singleton, Registry.isSpacing_of_nonTerminal hk.2]
    exact .inl rfl
  | parens =>
    rcases hrhs with _ | ⟨h₁, _ | ⟨h₂, _ | ⟨h₃, _ | ⟨h₄, _ | ⟨h₅, ⟨⟩⟩⟩⟩⟩⟩
    simp only [List.map_cons, List.map_nil, hterm (.inr (.inr (.inl rfl))) h₁,
      hterm (.inr (.inl rfl)) h₂, Registry.isSpacing_of_nonTerminal h₃.2,
      hterm (.inr (.inl rfl)) h₄, hterm (.inr (.inr (.inr rfl))) h₅]
    exact .inr (.inl rfl)
  | @form d hd =>
    refine .inr (.inr ⟨d, hd, ?_⟩)
    exact map_eq_map_of_forall₂ (List.forall₂_map_left_iff.1 hrhs) fun hf =>
      h.isSpacing_fragment hd hf

/-- No right-hand side begins or ends with a space. -/
theorem Assembles.ends_row (h : c.Assembles entry a known ds start) {row : List Expr}
    (hrow : Row ds row) {rhs : List Handle}
    (hrhs : List.Forall₂ a.table.grammar.registry.Stands row rhs) :
    (rhs.map a.table.grammar.registry.isSpacing).head? = some false ∧
      (rhs.map a.table.grammar.registry.isSpacing).getLast? = some false := by
  rcases h.marks_row hrow hrhs with hmarks | hmarks | ⟨d, hd, hmarks⟩
  · rw [hmarks]
    exact ⟨rfl, rfl⟩
  · rw [hmarks]
    exact ⟨rfl, rfl⟩
  · obtain ⟨hne, -, hhead, hlast⟩ := usable_of_objection (h.usable d hd).2
    rw [hmarks, List.head?_map, List.getLast?_map, List.head?_eq_some_head hne,
      List.getLast?_eq_some_getLast hne, Option.map_some, Option.map_some,
      hhead _ (List.head?_eq_some_head hne), hlast _ (List.getLast?_eq_some_getLast hne)]
    exact ⟨rfl, rfl⟩

/-- The right-hand sides of declared syntax are spaced. -/
theorem Assembles.spaced_row (h : c.Assembles entry a known ds start)
    (hspaces : ∀ d ∈ c.declarations, d.fragments.IsChain fun f f' => ¬ (f.isSpace ∧ f'.isSpace))
    {row : List Expr} (hrow : Row ds row) {rhs : List Handle}
    (hrhs : List.Forall₂ a.table.grammar.registry.Stands row rhs) :
    Spaced (rhs.map a.table.grammar.registry.isSpacing) := by
  obtain ⟨hhead, hlast⟩ := h.ends_row hrow hrhs
  refine foldlM_of_ends (fun _ => hhead) hlast ?_
  rcases h.marks_row hrow hrhs with hmarks | hmarks | ⟨d, hd, hmarks⟩
  · rw [hmarks]
    exact .singleton false
  · rw [hmarks]
    decide
  · rw [hmarks]
    exact (List.isChain_map _).2 (hspaces d.2 (h.usable d hd).1)

theorem Assembles.spaced_rule (h : c.Assembles entry a known ds start)
    (hspaces : ∀ d ∈ c.declarations, d.fragments.IsChain fun f f' => ¬ (f.isSpace ∧ f'.isSpace))
    {rule : Rule} (hrule : rule ∈ a.table.grammar.rules) :
    Spaced (rule.rhs.map a.table.grammar.registry.isSpacing) := by
  obtain ⟨augmented, rules, hrules, -, hstart, hrows⟩ := h.rules
  rw [hrules] at hrule
  rcases List.mem_cons.1 hrule with rfl | hrule
  · rw [List.map_singleton, Registry.isSpacing_of_nonTerminal hstart.2]
    rfl
  · obtain ⟨row, hrow, -, hrhs⟩ := hrows rule hrule
    exact h.spaced_row hspaces hrow hrhs

/-- **The words of an assembled grammar** have no two spaces in a row, so that something else comes
after every possibly empty terminal. -/
theorem Assembles.separate (h : c.Assembles entry a known ds start)
    (hspaces : ∀ d ∈ c.declarations, d.fragments.IsChain fun f f' => ¬ (f.isSpace ∧ f'.isSpace))
    {word : List Handle}
    (hword : a.table.grammar.Derives [a.table.grammar.start] word) :
    a.table.grammar.registry.Separate (word ++ [.endOfInput]) := by
  obtain ⟨-, -, -, -, hstart, -⟩ := h.rules
  have hspaced := hword.spaced a.table.grammar.registry.isSpacing
    (fun rule hrule => ⟨Registry.isSpacing_of_nonTerminal
      (h.wellFormed.lhs_nonTerminal rule hrule), h.spaced_rule hspaces hrule⟩)
    (by rw [List.map_singleton, Registry.isSpacing_of_nonTerminal hstart.2]; rfl)
  have hend : a.table.grammar.registry.isSpacing .endOfInput = false :=
    Registry.isSpacing_of_handleOf Registry.handleOf_end
  have hall : ((word ++ [Handle.endOfInput]).map a.table.grammar.registry.isSpacing).foldlM passMark
      false = some true := by
    rw [List.map_append, List.foldlM_append, hspaced, List.map_singleton, hend]
    rfl
  refine ((List.isChain_map _).1 (isChain_of_foldlM hall)).imp fun t u htu hsome => ?_
  obtain ⟨v, hv⟩ := Option.isSome_iff_exists.1 hsome
  obtain ⟨ht, hv'⟩ := h.lexicon.nonEmptyOf.1 hv
  have hu : a.table.grammar.registry.isSpacing u = false := by
    rw [← Bool.not_eq_true]
    exact fun hu => htu ⟨Registry.isSpacing_of_handleOf ht, hu⟩
  constructor
  · cases hnon : a.table.grammar.registry.nonEmptyOf u with
    | none => rfl
    | some v' =>
      rw [Registry.isSpacing_of_handleOf (h.lexicon.nonEmptyOf.1 hnon).1] at hu
      cases hu
  · rintro rfl
    rw [Registry.tokenOf_of_some hv, Registry.isSpacing_of_handleOf hv'] at hu
    cases hu

end Catalogue

end Mixfix
