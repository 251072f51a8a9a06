import Mixfix.Proofs.Assembly.Parts
import Mixfix.Proofs.Lookup

/-!
# The alternatives of declared syntax

Every nonterminal of declared syntax has a list of alternatives, each a row of symbols: a term is a
variable, a term in parentheses or a form of a category; a form has its fragments.  The rules of an
assembled grammar are these alternatives in handles.

* `Catalogue.Alternative`: the alternatives of a nonterminal.
* `Catalogue.alternative_iff`: they are the rows of the grammar of declared syntax.
* `Catalogue.Assembles.alternatives`, `Catalogue.Assembles.exists_rule`: every rule but the
  augmented one is one of them, and each of them is a rule.
* `Catalogue.Assembles.kind_transparent`: terms and the forms of a category leave no trace in
  results.
-/

namespace Mixfix

namespace Catalogue

/-- The nonterminals that a plain term stands for: all terms, the terms above a category, and the
terms of an entry without forms. -/
inductive Admits (entry : Entry) (ds : List (Nat × Declaration)) : String → Prop where
  | any : Admits entry ds anyName
  | above {category : String} : category ∈ tighter ds → Admits entry ds (greaterName category)
  | entry {category : String} : entry = .category category → category ∉ populated ds →
      Admits entry ds (atomicName category)

/-- The alternatives of the nonterminals of declared syntax. -/
inductive Alternative (entry : Entry) (priorities : LevelGraph String)
    (ds : List (Nat × Declaration)) : String → List Expr → Prop where
  /-- A variable, or a term in parentheses. -/
  | plain {name : String} {e : Expr} : Admits entry ds name → e ∈ termAlternatives →
      Alternative entry priorities ds name [e]
  | parens : Alternative entry priorities ds parensName [termExpr (.literal "("),
      termExpr .optionalBlank, .nonTerminal anyName, termExpr .optionalBlank,
      termExpr (.literal ")")]
  | form {d : Nat × Declaration} : d ∈ ds →
      Alternative entry priorities ds (formName d.1) (d.2.fragments.map fragmentExpr)
  /-- A form of the category. -/
  | own {d : Nat × Declaration} : d ∈ ds →
      Alternative entry priorities ds (atomicName d.2.category) [.nonTerminal (formName d.1)]
  /-- A form of any category. -/
  | any {category : String} : category ∈ populated ds →
      Alternative entry priorities ds anyName [.nonTerminal (atomicName category)]
  /-- A form of a category above. -/
  | above {lower higher : String} : lower ∈ tighter ds → higher ∈ priorities.successors lower →
      higher ∈ populated ds →
      Alternative entry priorities ds (greaterName lower) [.nonTerminal (atomicName higher)]

/-- The alternatives are the rows of the grammar of declared syntax. -/
theorem alternative_iff {entry : Entry} {start : String} {priorities : LevelGraph String}
    {ds : List (Nat × Declaration)} {name : String} {row : List Expr} :
    (∃ source ∈ (grammarOf entry start priorities ds).rules, source.1 = name ∧
      row ∈ source.2.rows) ↔ Alternative entry priorities ds name row := by
  constructor
  · rintro ⟨source, hsource, rfl, hrow⟩
    have hplain : ∀ {name}, Admits entry ds name → row ∈ (Expr.alt termAlternatives).rows →
        Alternative entry priorities ds name row := by
      intro name hname hrow
      obtain ⟨e, he, rfl⟩ := List.mem_map.1 hrow
      exact .plain hname he
    cases mem_rules.1 hsource with
    | any => exact hplain .any hrow
    | parens =>
      rw [List.mem_singleton.1 hrow]
      exact .parens
    | form hd =>
      rw [List.mem_singleton.1 hrow]
      exact .form hd
    | atomic hd =>
      rw [List.mem_singleton.1 hrow]
      exact .own hd
    | populated hname =>
      rw [List.mem_singleton.1 hrow]
      exact .any hname
    | entry hentry hname => exact hplain (.entry hentry hname) hrow
    | greater hcategory =>
      obtain ⟨e, he, rfl⟩ := List.mem_map.1 hrow
      rcases List.mem_append.1 he with he | he
      · obtain ⟨higher, hhigher, rfl⟩ := List.mem_map.1 he
        obtain ⟨habove, hpopulated⟩ := List.mem_filter.1 hhigher
        exact .above hcategory (Ascending.mem_ofList.1 habove) (by simpa using hpopulated)
      · exact .plain (.above hcategory) he
  · intro h
    have halt : ∀ {name es e}, IsRule entry priorities ds (name, .alt es) → e ∈ es →
        ∃ source ∈ (grammarOf entry start priorities ds).rules, source.1 = name ∧
          [e] ∈ source.2.rows :=
      fun hrule he => ⟨_, mem_rules.2 hrule, rfl, List.mem_map_of_mem he⟩
    cases h with
    | plain hname he =>
      cases hname with
      | any => exact halt .any he
      | above hcategory => exact halt (.greater hcategory) (List.mem_append_right _ he)
      | entry hentry hcategory => exact halt (.entry hentry hcategory) he
    | parens => exact ⟨_, mem_rules.2 .parens, rfl, List.mem_singleton_self _⟩
    | form hd => exact ⟨_, mem_rules.2 (.form hd), rfl, List.mem_singleton_self _⟩
    | own hd => exact ⟨_, mem_rules.2 (.atomic hd), rfl, List.mem_singleton_self _⟩
    | any hcategory => exact ⟨_, mem_rules.2 (.populated hcategory), rfl, List.mem_singleton_self _⟩
    | above hlower hhigher hpopulated =>
      refine halt (.greater hlower) (List.mem_append_left _ (List.mem_map_of_mem ?_))
      exact List.mem_filter.2 ⟨Ascending.mem_ofList.2 hhigher, by simpa using hpopulated⟩

/-! ### Layers and kinds -/

/-- The layer of a name: forms and terms in parentheses, the forms of a category, and terms. -/
def layerOf (name : String) : Nat :=
  if name = anyName then 3
  else
    match name.toList.head? with
    | some 'G' => 3
    | some 'A' => 2
    | some 'P' | some 'F' => 1
    | _ => 0

theorem layerOf_le (name : String) : layerOf name ≤ 3 := by
  rw [layerOf]
  split
  · exact Nat.le_refl 3
  · split <;> omega

@[simp] theorem layerOf_any : layerOf anyName = 3 := rfl

@[simp] theorem layerOf_parens : layerOf parensName = 1 := rfl

@[simp] theorem layerOf_atomic (category : String) : layerOf (atomicName category) = 2 := by
  simp [layerOf, atomicName, anyName, ← String.toList_inj]

@[simp] theorem layerOf_greater (category : String) : layerOf (greaterName category) = 3 := by
  simp [layerOf, greaterName, anyName, ← String.toList_inj]

@[simp] theorem layerOf_form (index : Nat) : layerOf (formName index) = 1 := by
  have hform : formName index = "Form:" ++ toString index := rfl
  simp [layerOf, hform, anyName, ← String.toList_inj]

theorem formName_injective {i j : Nat} (h : formName i = formName j) : i = j := by
  have hform : ∀ index : Nat, formName index = "Form:" ++ toString index := fun _ => rfl
  rw [hform, hform, String.append_right_inj] at h
  exact Nat.repr_inj.1 h

theorem formName_ne_parens (index : Nat) : formName index ≠ parensName := by
  have hform : formName index = "Form:" ++ toString index := rfl
  simp [hform, parensName, ← String.toList_inj]

/-- The terms and the forms of a category are transparent; terms in parentheses and forms have
tags. -/
theorem kind_cases {entry : Entry} {start : String} {priorities : LevelGraph String}
    {ds : List (Nat × Declaration)} {name : String} {kind : Kind}
    (h : (name, kind) ∈ (grammarOf entry start priorities ds).kinds) :
    2 ≤ layerOf name ∧ kind = .transparent ∨ name = parensName ∧ kind = .tagged "parens" ∨
      ∃ d ∈ ds, name = formName d.1 ∧ kind = .tagged d.2.tag := by
  simp only [grammarOf, List.mem_append, List.mem_map, List.mem_cons, Prod.mk.injEq,
    List.not_mem_nil, or_false, or_assoc] at h
  rcases h with ⟨rfl, rfl⟩ | ⟨rfl, rfl⟩ | ⟨d, hd, rfl, rfl⟩ | ⟨category, -, rfl, rfl⟩ |
    ⟨rule, hrule, rfl, rfl⟩ | ⟨rule, ⟨category, -, rfl⟩, rfl, rfl⟩
  · exact .inl ⟨by simp, rfl⟩
  · exact .inr (.inl ⟨rfl, rfl⟩)
  · exact .inr (.inr ⟨d, hd, rfl, rfl⟩)
  · exact .inl ⟨by simp, rfl⟩
  · obtain ⟨category, -, -, rfl⟩ := mem_entryRules.1 hrule
    exact .inl ⟨by simp, rfl⟩
  · exact .inl ⟨by simp [greaterRule], rfl⟩

/-- Every nonterminal with an alternative has a kind. -/
theorem Alternative.exists_kind {entry : Entry} {start : String} {priorities : LevelGraph String}
    {ds : List (Nat × Declaration)} {name : String} {row : List Expr}
    (h : Alternative entry priorities ds name row) :
    ∃ kind, (name, kind) ∈ (grammarOf entry start priorities ds).kinds := by
  have hatomic : ∀ {category}, category ∈ populated ds →
      (atomicName category, .transparent) ∈ (grammarOf entry start priorities ds).kinds := by
    intro category hcategory
    simp only [grammarOf, List.mem_append, List.mem_map]
    exact .inl (.inl (.inr ⟨category, hcategory, rfl⟩))
  have hgreater : ∀ {category}, category ∈ tighter ds →
      (greaterName category, .transparent) ∈ (grammarOf entry start priorities ds).kinds := by
    intro category hcategory
    simp only [grammarOf, List.mem_append, List.mem_map]
    exact .inr ⟨_, ⟨category, hcategory, rfl⟩, rfl⟩
  cases h with
  | plain hname _ =>
    cases hname with
    | any => exact ⟨.transparent, by simp [grammarOf]⟩
    | above hcategory => exact ⟨.transparent, hgreater hcategory⟩
    | entry hentry hcategory =>
      refine ⟨.transparent, ?_⟩
      simp only [grammarOf, List.mem_append, List.mem_map]
      exact .inl (.inr ⟨_, mem_entryRules.2 ⟨_, hentry, hcategory, rfl⟩, rfl⟩)
  | parens => exact ⟨.tagged "parens", by simp [grammarOf]⟩
  | @form d hd =>
    refine ⟨.tagged d.2.tag, ?_⟩
    simp only [grammarOf, List.mem_append, List.mem_map]
    exact .inl (.inl (.inl (.inr ⟨d, hd, rfl⟩)))
  | own hd =>
    exact ⟨.transparent, hatomic (Ascending.mem_ofList.2 (List.mem_map_of_mem hd))⟩
  | any _ => exact ⟨.transparent, by simp [grammarOf]⟩
  | above hcategory _ _ => exact ⟨.transparent, hgreater hcategory⟩

/-! ### The alternatives of one nonterminal -/

/-- The nonterminal of a slot. -/
def slotName : Option String → String
  | none => anyName
  | some category => greaterName category

theorem isName_slotName (above : Option String) : IsName (slotName above) := by
  cases above with
  | none => exact .inl rfl
  | some category => exact .inr (.inr (.inr (.inl ⟨category, rfl⟩)))

@[simp] theorem layerOf_slot (above : Option String) : layerOf (slotName above) = 3 := by
  cases above with
  | none => exact layerOf_any
  | some category => exact layerOf_greater category

theorem slotName_injective {above above' : Option String} (h : slotName above = slotName above') :
    above = above' := by
  cases above with
  | none =>
    cases above' with
    | none => rfl
    | some category' => simp [slotName, anyName, greaterName, ← String.toList_inj] at h
  | some category =>
    cases above' with
    | none => simp [slotName, anyName, greaterName, ← String.toList_inj] at h
    | some category' => rw [(String.append_right_inj "Greater:").1 h]

section

variable {entry : Entry} {priorities : LevelGraph String} {ds : List (Nat × Declaration)}
  {row : List Expr}

theorem Alternative.isName {name : String} (h : Alternative entry priorities ds name row) :
    IsName name := by
  cases h with
  | plain hname _ =>
    cases hname with
    | any => exact .inl rfl
    | above _ => exact .inr (.inr (.inr (.inl ⟨_, rfl⟩)))
    | entry _ _ => exact .inr (.inr (.inl ⟨_, rfl⟩))
  | parens => exact .inr (.inl rfl)
  | form _ => exact .inr (.inr (.inr (.inr ⟨_, rfl⟩)))
  | own _ => exact .inr (.inr (.inl ⟨_, rfl⟩))
  | any _ => exact .inl rfl
  | above _ _ _ => exact .inr (.inr (.inr (.inl ⟨_, rfl⟩)))

/-- The nonterminals of plain terms are those of slots and entries. -/
theorem Admits.cases_name {name : String} (h : Admits entry ds name) :
    (∃ above, name = slotName above) ∨
      ∃ category, name = atomicName category ∧ category ∉ populated ds := by
  cases h with
  | any => exact .inl ⟨none, rfl⟩
  | above _ => exact .inl ⟨some _, rfl⟩
  | entry _ hcategory => exact .inr ⟨_, rfl, hcategory⟩

/-- A slot takes plain terms and forms of the categories above. -/
theorem Alternative.of_slot {above : Option String}
    (h : Alternative entry priorities ds (slotName above) row) :
    (∃ e ∈ termAlternatives, row = [e]) ∨
      ∃ category ∈ populated ds, (∀ lower ∈ above, category ∈ priorities.successors lower) ∧
        row = [.nonTerminal (atomicName category)] := by
  have hlayer := layerOf_slot above
  generalize hname : slotName above = name at h hlayer
  cases h with
  | plain _ he => exact .inl ⟨_, he, rfl⟩
  | parens => simp at hlayer
  | form _ => simp at hlayer
  | own _ => simp at hlayer
  | any hcategory =>
    obtain rfl : above = none := slotName_injective hname
    exact .inr ⟨_, hcategory, fun _ hlower => (nomatch hlower), rfl⟩
  | @above lower higher _ hhigher hpopulated =>
    obtain rfl : above = some lower := slotName_injective hname
    refine .inr ⟨higher, hpopulated, fun lower' hlower => ?_, rfl⟩
    cases hlower
    exact hhigher

/-- The terms above a category are named where some slot asks for them. -/
theorem Alternative.mem_tighter {category : String}
    (h : Alternative entry priorities ds (greaterName category) row) : category ∈ tighter ds := by
  generalize hname : greaterName category = name at h
  cases h with
  | plain hadmits _ =>
    cases hadmits with
    | any => cases @slotName_injective (some category) none hname
    | above hcategory =>
      rw [(String.append_right_inj "Greater:").1 hname]
      exact hcategory
    | entry _ _ => exact absurd (congrArg layerOf hname) (by simp)
  | parens => exact absurd (congrArg layerOf hname) (by simp)
  | form _ => exact absurd (congrArg layerOf hname) (by simp)
  | own _ => exact absurd (congrArg layerOf hname) (by simp)
  | any _ => cases @slotName_injective (some category) none hname
  | above hcategory _ _ =>
    rw [(String.append_right_inj "Greater:").1 hname]
    exact hcategory

/-- The forms of a category are those declared in it. -/
theorem Alternative.of_atomic {category : String} (hcategory : category ∈ populated ds)
    (h : Alternative entry priorities ds (atomicName category) row) :
    ∃ d ∈ ds, d.2.category = category ∧ row = [.nonTerminal (formName d.1)] := by
  have hlayer := layerOf_atomic category
  generalize hname : atomicName category = name at h hlayer
  cases h with
  | plain hadmits _ =>
    obtain ⟨above, rfl⟩ | ⟨category', rfl, hnot⟩ := hadmits.cases_name
    · simp at hlayer
    · cases (String.append_right_inj "Atomic:").1 hname
      exact absurd hcategory hnot
  | parens => simp at hlayer
  | form _ => simp at hlayer
  | own hd => exact ⟨_, hd, ((String.append_right_inj "Atomic:").1 hname).symm, rfl⟩
  | any _ => simp at hlayer
  | above _ _ _ => simp at hlayer

/-- A form has its fragments. -/
theorem Alternative.of_form {i : Nat} (h : Alternative entry priorities ds (formName i) row) :
    ∃ d ∈ ds, d.1 = i ∧ row = d.2.fragments.map fragmentExpr := by
  have hlayer := layerOf_form i
  generalize hname : formName i = name at h hlayer
  cases h with
  | plain hadmits _ =>
    obtain ⟨above, rfl⟩ | ⟨category', rfl, -⟩ := hadmits.cases_name
    · simp at hlayer
    · simp at hlayer
  | parens => exact absurd hname (formName_ne_parens i)
  | form hd => exact ⟨_, hd, (formName_injective hname).symm, rfl⟩
  | own _ => simp at hlayer
  | any _ => simp at hlayer
  | above _ _ _ => simp at hlayer

end

namespace Assembles

variable {c : Catalogue} {entry : Entry} {a : Assembled} {known : List String}
  {ds : List (Nat × Declaration)} {start : String}

/-- Every rule but the augmented one is an alternative of declared syntax. -/
theorem alternatives (h : c.Assembles entry a known ds start) {rule : Rule}
    (hrule : rule ∈ a.table.grammar.rules.tail) :
    ∃ name row, Alternative entry a.priorities ds name row ∧
      a.table.grammar.registry.find? [name] = some rule.lhs ∧
      List.Forall₂ a.table.grammar.registry.Stands row rule.rhs := by
  obtain ⟨⟨augmented, rules, hrules, -, -, hrows⟩, -, -⟩ := declared_of_lower h.lowered
  rw [hrules] at hrule
  obtain ⟨source, hsource, row, hrow, hlhs, hrhs⟩ := hrows rule hrule
  exact ⟨source.1, row, alternative_iff.1 ⟨source, hsource, rfl, hrow⟩, hlhs.1, hrhs⟩

/-- A rule for a nonterminal of declared syntax is one of its alternatives. -/
theorem alternative_of_find? (h : c.Assembles entry a known ds start) {rule : Rule}
    (hrule : rule ∈ a.table.grammar.rules) {name : String} (hname : IsName name)
    (hlhs : a.table.grammar.registry.find? [name] = some rule.lhs) :
    ∃ row, Alternative entry a.priorities ds name row ∧
      List.Forall₂ a.table.grammar.registry.Stands row rule.rhs := by
  obtain ⟨augmented, rules, hrules, haugmented, -⟩ := h.rules
  have hcases := hrule
  rw [hrules] at hcases
  rcases List.mem_cons.1 hcases with rfl | htail
  · cases Registry.find?_inj hlhs haugmented
    exact absurd rfl hname.ne_augmented
  · obtain ⟨name', row, hrow, hlhs', hrhs⟩ := h.alternatives (by rw [hrules]; exact htail)
    cases Registry.find?_inj hlhs hlhs'
    exact ⟨row, hrow, hrhs⟩

/-- Every alternative of declared syntax is a rule. -/
theorem exists_rule (h : c.Assembles entry a known ds start) {name : String} {row : List Expr}
    (hrow : Alternative entry a.priorities ds name row) :
    ∃ (id : Nat) (rule : Rule), a.table.grammar.rules[id]? = some rule ∧
      a.table.grammar.registry.find? [name] = some rule.lhs ∧
      List.Forall₂ a.table.grammar.registry.Stands row rule.rhs := by
  obtain ⟨augmented, rules, -, -, -, hrules, -, -, -, hmade, -⟩ :=
    ExprGrammar.lower_flat_rules h.lowered
      fun _ hrule _ hrow => (row_of_mem_grammarOf hrule hrow).isSymbol
  obtain ⟨source, hsource, rfl, hrow'⟩ := alternative_iff.2 hrow
  obtain ⟨rule, hrule, hlhs, hrhs⟩ := hmade source hsource row hrow'
  have hmem : rule ∈ a.table.grammar.rules := by
    rw [hrules]
    exact List.mem_cons_of_mem _ hrule
  obtain ⟨id, hid⟩ := List.getElem?_of_mem hmem
  exact ⟨id, rule, hid, hlhs.1, hrhs⟩

/-- The kind of a nonterminal is declared, and one that its name was given. -/
theorem lookup_kind (h : c.Assembles entry a known ds start) {name : String} {row : List Expr}
    (hrow : Alternative entry a.priorities ds name row) {X : Handle}
    (hX : a.table.grammar.registry.find? [name] = some X) :
    ∃ kind, a.table.grammar.kinds.lookup X = some kind ∧
      (name, kind) ∈ (grammarOf entry start a.priorities ds).kinds := by
  obtain ⟨augmented, rules, handles, -, -, -, haugmented, -, -, -, hkinds, hhandles, -⟩ :=
    ExprGrammar.lower_flat_rules h.lowered
      fun _ hrule _ hrow => (row_of_mem_grammarOf hrule hrow).isSymbol
  obtain ⟨given, hgiven⟩ : ∃ kind, (name, kind) ∈ (grammarOf entry start a.priorities ds).kinds :=
    hrow.exists_kind
  obtain ⟨made, hmade, hfind, -⟩ := exists_of_forall₂ hhandles.flip hgiven
  cases hX.symm.trans hfind
  have hin : made ∈ a.table.grammar.kinds := by
    rw [hkinds]
    exact List.mem_cons_of_mem _ (List.mem_reverse.2 hmade)
  obtain ⟨kind, hkind⟩ := exists_lookup_of_mem hin
  refine ⟨kind, hkind, ?_⟩
  have hmem := mem_of_lookup_eq_some hkind
  rw [hkinds] at hmem
  -- The first entry is that of the augmented nonterminal, which has another name.
  rcases List.mem_cons.1 hmem with hfirst | hmem
  · cases hfirst
    cases Registry.find?_inj hX haugmented
    exact absurd rfl hrow.isName.ne_augmented
  · obtain ⟨⟨name', kind'⟩, hgiven', hfind', hkind'⟩ :=
      exists_of_forall₂ hhandles (List.mem_reverse.1 hmem)
    cases Registry.find?_inj hX hfind'
    cases (hkind' : kind = kind')
    exact hgiven'

theorem kind_mem (h : c.Assembles entry a known ds start) {name : String} {row : List Expr}
    (hrow : Alternative entry a.priorities ds name row) {X : Handle}
    (hX : a.table.grammar.registry.find? [name] = some X) :
    ∃ kind, a.table.grammar.kind X = .ok kind ∧
      (name, kind) ∈ (grammarOf entry start a.priorities ds).kinds := by
  obtain ⟨kind, hkind, hgiven⟩ := h.lookup_kind hrow hX
  exact ⟨kind, by rw [Grammar.kind, hkind], hgiven⟩

/-- Every nonterminal with a rule has a declared kind, the augmented one too. -/
theorem kinds_isSome (h : c.Assembles entry a known ds start) {rule : Rule}
    (hrule : rule ∈ a.table.grammar.rules) :
    (a.table.grammar.kinds.lookup rule.lhs).isSome := by
  obtain ⟨augmented, rules, handles, -, -, hrules, -, -, -, -, hkinds, -⟩ :=
    ExprGrammar.lower_flat_rules h.lowered
      fun _ hrule _ hrow => (row_of_mem_grammarOf hrule hrow).isSymbol
  have hcases := hrule
  rw [hrules] at hcases
  rcases List.mem_cons.1 hcases with rfl | htail
  · rw [hkinds, List.lookup_cons_self]
    rfl
  · have htail' : rule ∈ a.table.grammar.rules.tail := by
      rw [hrules]
      exact htail
    obtain ⟨name, row, hrow, hlhs, -⟩ := h.alternatives htail'
    obtain ⟨kind, hkind, -⟩ := h.lookup_kind hrow hlhs
    rw [hkind]
    rfl

/-- Terms and the forms of a category are transparent. -/
theorem kind_transparent (h : c.Assembles entry a known ds start) {name : String}
    {row : List Expr} (hrow : Alternative entry a.priorities ds name row)
    (hlayer : 2 ≤ layerOf name) {X : Handle}
    (hX : a.table.grammar.registry.find? [name] = some X) :
    a.table.grammar.kind X = .ok .transparent := by
  obtain ⟨kind, hkind, hgiven⟩ := h.kind_mem hrow hX
  rcases kind_cases hgiven with ⟨-, rfl⟩ | ⟨rfl, -⟩ | ⟨d, -, rfl, -⟩
  · exact hkind
  · simp at hlayer
  · simp at hlayer

/-- Terms in parentheses and forms are not. -/
theorem kind_ne_transparent (h : c.Assembles entry a known ds start) {name : String}
    {row : List Expr} (hrow : Alternative entry a.priorities ds name row)
    (hlayer : layerOf name = 1) {X : Handle}
    (hX : a.table.grammar.registry.find? [name] = some X) :
    a.table.grammar.kind X ≠ .ok .transparent := by
  obtain ⟨kind, hkind, hgiven⟩ := h.kind_mem hrow hX
  rw [hkind]
  rcases kind_cases hgiven with ⟨hle, -⟩ | ⟨-, rfl⟩ | ⟨d, -, -, rfl⟩
  · omega
  · simp
  · simp

end Assembles

end Catalogue

end Mixfix
