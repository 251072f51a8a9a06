import Mathlib.Logic.Function.Basic
import Mixfix.Proofs.Assembly.Complete
import Mixfix.Proofs.Assembly.Alternatives
import Mixfix.Proofs.Executor.Names

/-!
# Renumbering forms

The nonterminal of a form is named after the number of its declaration.  Other numbers make the same
grammar under other names, and then the same table, the same blame and the same bound terminals.

* `Catalogue.renumber`: other names for the nonterminals of forms.
* `Catalogue.grammarOf_renumbered`: the grammar of declarations with other numbers.
* `Catalogue.blame_rename`: the states without a decision are blamed on the same categories.
* `Table.bind_rename`: terminals are bound alike.
-/

namespace Mixfix

namespace Catalogue

/-! ### Names of forms -/

open Classical in
/-- Other numbers for forms; other names stay. -/
noncomputable def renumber (f : Nat → Nat) (name : String) : String :=
  if h : ∃ i, name = formName i then formName (f h.choose) else name

section

variable {f : Nat → Nat}

@[simp] theorem renumber_form (i : Nat) : renumber f (formName i) = formName (f i) := by
  have h : ∃ j, formName i = formName j := ⟨i, rfl⟩
  rw [renumber, dif_pos h, ← formName_injective h.choose_spec]

theorem renumber_of_ne {name : String} (h : ∀ i, name ≠ formName i) : renumber f name = name :=
  dif_neg fun ⟨i, hi⟩ => h i hi

/-- The names of forms begin with a letter of their own. -/
theorem ne_formName {name : String} (h : name.toList.head? ≠ some 'F') (i : Nat) :
    name ≠ formName i := by
  rintro rfl
  have hform : formName i = "Form:" ++ toString i := rfl
  exact h (by simp [hform])

@[simp] theorem renumber_any : renumber f anyName = anyName :=
  renumber_of_ne (ne_formName (by decide))

@[simp] theorem renumber_parens : renumber f parensName = parensName :=
  renumber_of_ne (ne_formName (by decide))

@[simp] theorem renumber_atomic (category : String) :
    renumber f (atomicName category) = atomicName category :=
  renumber_of_ne (ne_formName (by simp [atomicName]))

@[simp] theorem renumber_greater (category : String) :
    renumber f (greaterName category) = greaterName category :=
  renumber_of_ne (ne_formName (by simp [greaterName]))

@[simp] theorem renumber_entry (entry : Entry) :
    renumber f (entryName entry) = entryName entry := by
  cases entry with
  | any => exact renumber_any
  | category name => exact renumber_atomic name

theorem isNonTerminalSymbol_form (i : Nat) : isNonTerminalSymbol (formName i) :=
  IsName.isNonTerminalSymbol (.inr (.inr (.inr (.inr ⟨i, rfl⟩))))

theorem renaming_renumber (hf : Function.Injective f) : Renaming (renumber f) where
  injective := by
    intro a b hab
    by_cases ha : ∃ i, a = formName i <;> by_cases hb : ∃ j, b = formName j
    · obtain ⟨i, rfl⟩ := ha
      obtain ⟨j, rfl⟩ := hb
      rw [renumber_form, renumber_form] at hab
      rw [hf (formName_injective hab)]
    · obtain ⟨i, rfl⟩ := ha
      rw [renumber_form, renumber_of_ne (not_exists.1 hb)] at hab
      exact absurd ⟨f i, hab.symm⟩ hb
    · obtain ⟨j, rfl⟩ := hb
      rw [renumber_form, renumber_of_ne (not_exists.1 ha)] at hab
      exact absurd ⟨f j, hab⟩ ha
    · rwa [renumber_of_ne (not_exists.1 ha), renumber_of_ne (not_exists.1 hb)] at hab
  nonTerminal := by
    intro symbol hs
    by_cases h : ∃ i, symbol = formName i
    · obtain ⟨i, rfl⟩ := h
      rw [renumber_form]
      exact isNonTerminalSymbol_form (f i)
    · rwa [renumber_of_ne (not_exists.1 h)]
  other := fun hs => renumber_of_ne fun i hi => hs (hi ▸ isNonTerminalSymbol_form i)
  augmented := renumber_of_ne (ne_formName (by decide))

end

/-! ### The grammar -/

/-- The declarations with other numbers. -/
def renumbered (f : Nat → Nat) (ds : List (Nat × Declaration)) : List (Nat × Declaration) :=
  ds.map fun (i, d) => (f i, d)

section

variable {f : Nat → Nat} (ds : List (Nat × Declaration))

@[simp] theorem populated_renumbered : populated (renumbered f ds) = populated ds := by
  rw [populated, renumbered, List.map_map]
  rfl

@[simp] theorem literalsOf_renumbered : literalsOf (renumbered f ds) = literalsOf ds := by
  rw [literalsOf, renumbered, List.flatMap_map]
  rfl

@[simp] theorem tighter_renumbered : tighter (renumbered f ds) = tighter ds := by
  rw [tighter, renumbered, List.flatMap_map]
  rfl

@[simp] theorem greaterRule_renumbered (priorities : LevelGraph String) :
    greaterRule priorities (renumbered f ds) = greaterRule priorities ds := by
  funext category
  rw [greaterRule, greaterRule, populated_renumbered]

@[simp] theorem entryRules_renumbered (entry : Entry) :
    entryRules entry (renumbered f ds) = entryRules entry ds := by
  cases entry with
  | any => rfl
  | category name => rw [entryRules, entryRules, populated_renumbered]

theorem renameSymbol_fragmentExpr (fragment : Fragment) :
    (fragmentExpr fragment).renameSymbol (renumber f) = fragmentExpr fragment := by
  cases fragment with
  | text text => rfl
  | space optional => cases optional <;> rfl
  | bound name => rfl
  | free above => cases above <;> simp [fragmentExpr]

theorem map_renameSymbol_termAlternatives :
    termAlternatives.map (Expr.renameSymbol (renumber f)) = termAlternatives := by
  simp [termAlternatives, termExpr, Expr.named]

theorem map_rename_entryRules (entry : Entry) :
    (entryRules entry ds).map (fun (name, body) => (renumber f name, body.rename (renumber f))) =
      entryRules entry ds := by
  cases entry with
  | any => rfl
  | category name =>
    rw [entryRules]
    split <;> simp [map_renameSymbol_termAlternatives]

theorem rename_greaterRule (priorities : LevelGraph String) (category : String) :
    (greaterRule priorities ds category).2.rename (renumber f) =
      (greaterRule priorities ds category).2 := by
  simp [greaterRule, map_renameSymbol_termAlternatives, Function.comp_def]

/-- The rules of forms are made of the same fragments under other names. -/
theorem flatMap_formRules_renumbered :
    (renumbered f ds).flatMap formRules = (ds.flatMap formRules).map
      fun (name, body) => (renumber f name, body.rename (renumber f)) := by
  rw [renumbered, List.flatMap_map, List.map_flatMap]
  refine List.flatMap_congr fun d _ => ?_
  have hfragments : (d.2.fragments.map fragmentExpr).map (Expr.renameSymbol (renumber f)) =
      d.2.fragments.map fragmentExpr := by
    rw [List.map_map]
    exact List.map_congr_left fun fragment _ => renameSymbol_fragmentExpr fragment
  simp [formRules, hfragments]

/-- **The grammar of declarations with other numbers** is the same under other names. -/
theorem grammarOf_renumbered (entry : Entry) (priorities : LevelGraph String) :
    grammarOf entry (entryName entry) priorities (renumbered f ds) =
      (grammarOf entry (entryName entry) priorities ds).rename (renumber f) := by
  have hbase : baseRules.map (fun (name, body) => (renumber f name, body.rename (renumber f))) =
      baseRules := by
    simp [baseRules, map_renameSymbol_termAlternatives, termExpr, Expr.named]
  have hgreater : ∀ category, ((renumber f (greaterRule priorities ds category).1,
      (greaterRule priorities ds category).2.rename (renumber f)) : String × Expr) =
        greaterRule priorities ds category := by
    intro category
    rw [rename_greaterRule]
    exact Prod.ext (renumber_greater category) rfl
  have hentries : ∀ name ∈ (entryRules entry ds).map (·.1), renumber f name = name := by
    intro name hname
    obtain ⟨rule, hrule, rfl⟩ := List.mem_map.1 hname
    obtain ⟨category, -, -, rfl⟩ := mem_entryRules.1 hrule
    exact renumber_atomic category
  simp only [grammarOf, ExprGrammar.rename, List.map_append, List.map_map,
    flatMap_formRules_renumbered, populated_renumbered, literalsOf_renumbered, tighter_renumbered,
    greaterRule_renumbered, entryRules_renumbered, hbase, map_rename_entryRules, renumber_entry]
  congr 1
  · simp [Function.comp_def, hgreater]
  · have hkinds : (entryRules entry ds).map (fun rule => (renumber f rule.1, Kind.transparent)) =
        (entryRules entry ds).map fun rule => (rule.1, Kind.transparent) :=
      List.map_congr_left fun rule hrule => by rw [hentries _ (List.mem_map_of_mem hrule)]
    simp [Function.comp_def, renumbered, greaterRule, hkinds]

theorem originTable_renumbered : originTable (renumbered f ds) =
    (originTable ds).map fun (name, category) => (renumber f name, category) := by
  rw [originTable, originTable, populated_renumbered, tighter_renumbered]
  simp [renumbered, Function.comp_def]

end

/-- Kinds are declared of nonterminals. -/
theorem isNonTerminalSymbol_of_kind {entry : Entry} {start : String}
    {priorities : LevelGraph String} {ds : List (Nat × Declaration)} {kind : String × Kind}
    (h : kind ∈ (grammarOf entry start priorities ds).kinds) : isNonTerminalSymbol kind.1 := by
  refine IsName.isNonTerminalSymbol ?_
  simp only [grammarOf, List.mem_append, List.mem_map, List.mem_cons, List.not_mem_nil, or_false,
    or_assoc] at h
  rcases h with rfl | rfl | ⟨d, -, rfl⟩ | ⟨category, -, rfl⟩ | ⟨rule, hrule, rfl⟩ |
    ⟨rule, ⟨category, -, rfl⟩, rfl⟩
  · exact .inl rfl
  · exact .inr (.inl rfl)
  · exact .inr (.inr (.inr (.inr ⟨_, rfl⟩)))
  · exact .inr (.inr (.inl ⟨category, rfl⟩))
  · obtain ⟨category, -, -, rfl⟩ := mem_entryRules.1 hrule
    exact .inr (.inr (.inl ⟨category, rfl⟩))
  · exact .inr (.inr (.inr (.inl ⟨category, rfl⟩)))

/-! ### Blame -/

section

variable {ρ : String → String} {origins : List (String × String)}

theorem lookup_map_fst {α : Type} (hρ : Function.Injective ρ) (l : List (String × α))
    (name : String) : (l.map fun (a, b) => (ρ a, b)).lookup (ρ name) = l.lookup name := by
  induction l with
  | nil => rfl
  | cons entry l ih =>
    have heq : (ρ name == ρ entry.1) = (name == entry.1) := by
      rw [Bool.eq_iff_iff, beq_iff_eq, beq_iff_eq, hρ.eq_iff]
    rw [List.map_cons, List.lookup_cons, List.lookup_cons, heq, ih]

theorem originOf_rename (hρ : Function.Injective ρ) (r : Registry) {lhs : Handle}
    (hlhs : lhs.isNonTerminal) :
    originOf (origins.map fun (name, category) => (ρ name, category)) (r.rename ρ) lhs =
      originOf origins r lhs := by
  have hlookup : (r.rename ρ).lookup? lhs = (r.lookup? lhs).map (·.map ρ) := by
    obtain ⟨id⟩ := lhs
    match id, hlhs with
    | .ofNat (n + 1), _ => simp [Registry.lookup?, Registry.rename, Function.comp_def]
  rw [originOf, originOf, Registry.symbolsOf, Registry.symbolsOf, hlookup]
  cases r.lookup? lhs with
  | none => rfl
  | some symbols =>
    cases symbols with
    | nil => rfl
    | cons symbol symbols =>
      simp only [Option.map_some, List.map_cons, bind, Except.bind, List.head?_cons,
        Option.bind_some, lookup_map_fst hρ]

/-- Blame does not depend on names: the origins of renamed nonterminals are the same. -/
theorem blame_rename (hρ : Function.Injective ρ) {t : Table}
    (hlhs : ∀ rule ∈ t.grammar.rules, rule.lhs.isNonTerminal) :
    blame (origins.map fun (name, category) => (ρ name, category)) (t.rename ρ) =
      blame origins t := by
  have horigins : originsIn (origins.map fun (name, category) => (ρ name, category))
      (t.rename ρ).grammar = originsIn origins t.grammar := by
    funext items
    rw [originsIn, originsIn]
    congr 1
    funext item
    have hrule : (t.rename ρ).grammar.rules[item.rule]? = t.grammar.rules[item.rule]? := rfl
    rw [hrule]
    cases hfound : t.grammar.rules[item.rule]? with
    | none => rfl
    | some rule => exact originOf_rename hρ _ (hlhs rule (List.mem_of_getElem? hfound))
  rw [blame, blame, horigins]
  rfl

end

end Catalogue

/-! ### Terminals -/

theorem foldlM_congr_of_mem {ε α β : Type} {f f' : β → α → Except ε β} {l : List α}
    (h : ∀ b, ∀ a ∈ l, f' b a = f b a) (b : β) : l.foldlM f' b = l.foldlM f b := by
  induction l generalizing b with
  | nil => rfl
  | cons a l ih =>
    obtain ⟨ha, hl⟩ : (∀ b, f' b a = f b a) ∧ ∀ b, ∀ a ∈ l, f' b a = f b a :=
      ⟨fun b => h b a List.mem_cons_self, fun b a ha => h b a (List.mem_cons_of_mem _ ha)⟩
    rw [List.foldlM_cons, List.foldlM_cons, ha]
    congr 1
    funext b
    exact ih hl b

/-- Terminals are bound alike under other names for nonterminals. -/
theorem Table.bind_rename {α : Type} {ρ : String → String} {t : Table} {atEnd : α}
    {named : List (String × α)} {bound : List (Handle × α)}
    (hnamed : ∀ given ∈ named, Registry.IsTerminalGroup (symbolsOfName given.1))
    (h : t.bind atEnd named = .ok bound) : (t.rename ρ).bind atEnd named = .ok bound := by
  have hstep : ∀ before, ∀ given ∈ named,
      (t.rename ρ).bindName before given = t.bindName before given := by
    intro before given hgiven
    have hfind : (t.rename ρ).grammar.registry.find? (symbolsOfName given.1) =
        t.grammar.registry.find? (symbolsOfName given.1) :=
      Registry.find?_rename_terminal (hnamed given hgiven)
    rw [bindName, bindName, hfind]
  have hused : (t.rename ρ).grammar.terminals = t.grammar.terminals := rfl
  rw [bind_eq] at h ⊢
  rw [foldlM_congr_of_mem hstep, hused]
  obtain ⟨found, hfold, h⟩ := except_bind_eq_ok.1 h
  refine except_bind_eq_ok.2 ⟨found, hfold, ?_⟩
  split at h
  · obtain ⟨_, -, h⟩ := except_bind_eq_ok.1 h
    cases h
  · exact h

end Mixfix
