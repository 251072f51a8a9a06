import Mixfix.Proofs.Assembly.Lexicon
import Mixfix.Proofs.Grammar.Totality

/-!
# The grammar of declared syntax is complete

Whatever the categories are called, the nonterminals made for them are written as nonterminals, and
the keys of terminals as terminals. A nonterminal is written only where it has a rule: a slot asks
for the terms above a category only if these have a rule, and a choice offers the forms of a
category only if there are some.

* `Catalogue.defines_of_mem_row`: every nonterminal in a row has a rule.
* `Catalogue.Row.part`: the parts of a row are names of declared syntax and its terminals.
* `Catalogue.complete_grammarOf`: the grammar of usable declarations is complete, so it lowers.
-/

namespace Mixfix

namespace Catalogue

variable {entry : Entry} {start : String} {priorities : LevelGraph String}
  {ds : List (Nat × Declaration)} {known : List String}

/-! ### Rules for every nonterminal -/

theorem defines_any : (grammarOf entry start priorities ds).Defines anyName :=
  ⟨_, mem_rules.2 .any, rfl, by simp [Expr.rows, termAlternatives]⟩

theorem defines_parens : (grammarOf entry start priorities ds).Defines parensName :=
  ⟨_, mem_rules.2 .parens, rfl, by simp [Expr.rows]⟩

theorem defines_form {d : Nat × Declaration} (hd : d ∈ ds) :
    (grammarOf entry start priorities ds).Defines (formName d.1) :=
  ⟨_, mem_rules.2 (.form hd), rfl, by simp [Expr.rows]⟩

theorem defines_atomic {name : String} (h : name ∈ populated ds) :
    (grammarOf entry start priorities ds).Defines (atomicName name) := by
  obtain ⟨d, hd, rfl⟩ := List.mem_map.1 (Ascending.mem_ofList.1 h)
  exact ⟨_, mem_rules.2 (.atomic hd), rfl, by simp [Expr.rows]⟩

theorem defines_greater {category : String} (h : category ∈ tighter ds) :
    (grammarOf entry start priorities ds).Defines (greaterName category) :=
  ⟨_, mem_rules.2 (.greater h), rfl, by simp [greaterRule, Expr.rows, termAlternatives]⟩

/-- The nonterminal of an entry has a rule, also if its category has no form. -/
theorem defines_entry : (grammarOf entry start priorities ds).Defines (entryName entry) := by
  cases entry with
  | any => exact defines_any
  | category name =>
    by_cases hname : name ∈ populated ds
    · exact defines_atomic hname
    · exact ⟨_, mem_rules.2 (.entry rfl hname), rfl, by simp [Expr.rows, termAlternatives]⟩

theorem mem_tighter {d : Nat × Declaration} (hd : d ∈ ds) {category : String}
    (h : .free (some category) ∈ d.2.fragments) : category ∈ tighter ds :=
  Ascending.mem_ofList.2 (List.mem_flatMap.2 ⟨d, hd, List.mem_filterMap.2 ⟨_, h, rfl⟩⟩)

/-- Every nonterminal that a row mentions has a rule. -/
theorem defines_of_mem_row {rule : String × Expr}
    (hrule : rule ∈ (grammarOf entry start priorities ds).rules) {row : List Expr}
    (hrow : row ∈ rule.2.rows) {name : String} (hname : .nonTerminal name ∈ row) :
    (grammarOf entry start priorities ds).Defines name := by
  have hterms : .nonTerminal name ∈ termAlternatives →
      (grammarOf entry start priorities ds).Defines name := by
    intro h
    simp only [termAlternatives, termExpr, Expr.named, List.mem_cons, reduceCtorEq,
      Expr.nonTerminal.injEq, List.not_mem_nil, or_false, false_or] at h
    rw [h]
    exact defines_parens
  have hsingle : ∀ {other : String}, row ∈ (Expr.nonTerminal other).rows → name = other := by
    intro other h
    rw [List.mem_singleton.1 h] at hname
    cases List.mem_singleton.1 hname
    rfl
  have halt : ∀ {es : List Expr}, row ∈ (Expr.alt es).rows → .nonTerminal name ∈ es := by
    intro es h
    obtain ⟨e, he, rfl⟩ := List.mem_map.1 h
    rw [List.mem_singleton.1 hname]
    exact he
  cases mem_rules.1 hrule with
  | any => exact hterms (halt hrow)
  | parens =>
    rw [List.mem_singleton.1 hrow] at hname
    simp only [termExpr, Expr.named, List.mem_cons, reduceCtorEq, Expr.nonTerminal.injEq,
      List.not_mem_nil, or_false, false_or] at hname
    rw [hname]
    exact defines_any
  | form hd =>
    rw [List.mem_singleton.1 hrow] at hname
    obtain ⟨f, hf, heq⟩ := List.mem_map.1 hname
    cases f with
    | text text => cases heq
    | space optional => cases optional <;> cases heq
    | bound name => cases heq
    | free above =>
      cases above with
      | none =>
        cases heq
        exact defines_any
      | some category =>
        cases heq
        exact defines_greater (mem_tighter hd hf)
  | atomic hd =>
    rw [hsingle hrow]
    exact defines_form hd
  | populated hcategory =>
    rw [hsingle hrow]
    exact defines_atomic hcategory
  | entry _ _ => exact hterms (halt hrow)
  | greater _ =>
    -- The forms of a category are offered only if there are some.
    rcases List.mem_append.1 (halt hrow) with h | h
    · obtain ⟨above, habove, heq⟩ := List.mem_map.1 h
      cases heq
      exact defines_atomic (by simpa using (List.mem_filter.1 habove).2)
    · exact hterms h

theorem IsRule.isName {rule : String × Expr} (h : IsRule entry priorities ds rule) :
    IsName rule.1 := by
  cases h with
  | any | populated _ => exact .inl rfl
  | parens => exact .inr (.inl rfl)
  | form _ => exact .inr (.inr (.inr (.inr ⟨_, rfl⟩)))
  | atomic _ | entry _ _ => exact .inr (.inr (.inl ⟨_, rfl⟩))
  | greater _ => exact .inr (.inr (.inr (.inl ⟨_, rfl⟩)))

/-! ### Proper symbols -/

/-- A part of a row is a nonterminal of declared syntax, or a terminal. -/
theorem Row.part {row : List Expr} (h : Row ds row) {e : Expr} (he : e ∈ row) :
    (∃ name, e = .nonTerminal name ∧ IsName name) ∨
      ∃ t ∈ Terminal.every (literalsOf ds), t ≠ .endOfInput ∧ e = termExpr t := by
  cases h with
  | identifier =>
    rw [List.mem_singleton.1 he]
    exact .inr ⟨.identifier, by simp, by decide, rfl⟩
  | name hname =>
    rw [List.mem_singleton.1 he]
    exact .inl ⟨_, rfl, hname⟩
  | parens =>
    have hparens : ∀ {text : String}, text ∈ ["(", ")"] →
        .literal text ∈ Terminal.every (literalsOf ds) := by
      intro text htext
      simp only [Terminal.mem_every_iff, Terminal.allLiterals, Ascending.mem_ofList]
      rintro _ ⟨⟩
      exact List.mem_append_right _ htext
    simp only [List.mem_cons, List.not_mem_nil, or_false] at he
    rcases he with rfl | rfl | rfl | rfl | rfl
    · exact .inr ⟨.literal "(", hparens (by simp), by decide, rfl⟩
    · exact .inr ⟨.optionalBlank, by simp, by decide, rfl⟩
    · exact .inl ⟨_, rfl, .inl rfl⟩
    · exact .inr ⟨.optionalBlank, by simp, by decide, rfl⟩
    · exact .inr ⟨.literal ")", hparens (by simp), by decide, rfl⟩
  | @form d hd =>
    obtain ⟨f, hf, rfl⟩ := List.mem_map.1 he
    cases f with
    | text text => exact .inr ⟨.literal text, literal_mem_every hd hf, by rintro ⟨⟩, rfl⟩
    | space optional =>
      cases optional with
      | false => exact .inr ⟨.blank, by simp, by decide, rfl⟩
      | true => exact .inr ⟨.optionalBlank, by simp, by decide, rfl⟩
    | bound name => exact .inr ⟨.identifier, by simp, by decide, rfl⟩
    | free above =>
      cases above with
      | none => exact .inl ⟨_, rfl, .inl rfl⟩
      | some category => exact .inl ⟨_, rfl, .inr (.inr (.inr (.inl ⟨category, rfl⟩)))⟩

theorem isTerminalGroup_key (hsolid : ∀ text ∈ literalsOf ds, Terminal.Solid text) {t : Terminal}
    (ht : t ∈ Terminal.every (literalsOf ds)) :
    Registry.IsTerminalGroup (symbolsOfName t.key) := by
  rw [symbolsOfName_of_solid (Terminal.solid_key hsolid ht)]
  refine ⟨List.cons_ne_nil _ _, fun symbol hsymbol => ?_⟩
  rw [List.mem_singleton.1 hsymbol]
  exact Terminal.isNonTerminalGroup_key

/-- **The grammar of usable declarations is complete.** -/
theorem complete_grammarOf (priorities : LevelGraph String)
    (hstart : startOf known entry = .ok start)
    (husable : ∀ d ∈ ds, d.2.objection known = none) :
    (grammarOf entry start priorities ds).Complete
      ((Terminal.distinctKeys (literalsOf ds)).map symbolsOfName)
      (symbolsOfName Terminal.optionalBlank.key, symbolsOfName Terminal.blank.key) := by
  have hsolid := solid_literalsOf husable
  exact
    { named := fun rule hrule => (mem_rules.1 hrule).isName.isNonTerminalSymbol
      proper := fun rule hrule row hrow part hpart => by
        obtain ⟨name, rfl, hname⟩ | ⟨t, ht, -, rfl⟩ := (row_of_mem_grammarOf hrule hrow).part hpart
        · exact hname.isNonTerminalSymbol
        · exact isTerminalGroup_key hsolid ht
      start := by
        show (grammarOf entry start priorities ds).Defines start
        nth_rewrite 2 [entryName_of_startOf hstart]
        exact defines_entry
      defined := fun rule hrule row hrow name hname => defines_of_mem_row hrule hrow hname
      distinct := rfl
      emptyPairs := rfl
      finals := rfl
      group_terminal := fun symbols hsymbols => by
        obtain ⟨key, hkey, rfl⟩ := List.mem_map.1 hsymbols
        obtain ⟨t, ht, -, rfl⟩ := mem_distinctKeys.1 hkey
        exact isTerminalGroup_key hsolid (Terminal.mem_every.2 (.inr ht))
      pair_terminal :=
        ⟨isTerminalGroup_key hsolid (by simp), isTerminalGroup_key hsolid (by simp)⟩
      pair_ne := by decide }

end Catalogue

end Mixfix
