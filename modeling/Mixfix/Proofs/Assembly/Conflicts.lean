import Mixfix.Proofs.Assembly.Cleaning
import Mixfix.Proofs.Assembly.Decided
import Mixfix.Proofs.Assembly.Productive

/-!
# Conflict reports

The reports of an assembly are exact.  A state is undecided only by a conflict that its plan leaves,
because no read of an assembled parser is vague; and each such state has an active item, because the
grammar is productive, so that it is blamed on something.  What it is blamed on are the origins of
its active items: a category for the nonterminals of its forms, of its forms together and of the
terms above it, which determine the category.

* `Catalogue.Owns`: the nonterminals of a category.
* `Assembled.Features`: a state has an active item of a nonterminal.
* `Catalogue.Assembles.stems_iff`: what comes from a category are the items of its nonterminals.
* `Catalogue.Assembles.undecided_iff`: the undecided states are the unresolved ones.
* `Catalogue.conflicts_exact`: what is reported.
-/

namespace Mixfix

open Ascending

/-- A state has an item of a rule for the nonterminal with this name, which is complete or stands
before a terminal. -/
def Assembled.Features (a : Assembled) (i : Nat) (name : String) : Prop :=
  ∃ row, a.table.rows[i]? = some row ∧ ∃ item ∈ row.items,
    (item.isComplete a.table.grammar ∨ ∃ t, item.next? a.table.grammar = some t ∧ t.isTerminal) ∧
    ∃ rule, a.table.grammar.rules[item.rule]? = some rule ∧
      a.table.grammar.registry.find? [name] = some rule.lhs

namespace Catalogue

variable {c : Catalogue} {entry : Entry} {a : Assembled} {known : List String}
  {ds : List (Nat × Declaration)} {start : String}

/-! ### Origins -/

/-- The nonterminals of a category: those of its forms and, if it has any, of its forms together;
and that of the terms above it. -/
inductive Owns (c : Catalogue) (category : String) : String → Prop where
  | form {i : Nat} {decl : Declaration} : c.Usable i decl → decl.category = category →
      Owns c category (formName i)
  | forms {i : Nat} {decl : Declaration} : c.Usable i decl → decl.category = category →
      Owns c category (atomicName category)
  | above : Owns c category (greaterName category)

theorem Owns.isName {category name : String} (h : c.Owns category name) : IsName name := by
  cases h with
  | form _ _ => exact .inr (.inr (.inr (.inr ⟨_, rfl⟩)))
  | forms _ _ => exact .inr (.inr (.inl ⟨_, rfl⟩))
  | above => exact .inr (.inr (.inr (.inl ⟨_, rfl⟩)))

/-- A nonterminal is of one category. -/
theorem Owns.unique {category category' name : String} (h : c.Owns category name)
    (h' : c.Owns category' name) : category = category' := by
  -- The three kinds of names have different layers.
  cases h with
  | @form i decl husable hcategory =>
    generalize hname : formName i = name at h'
    cases h' with
    | form husable' hcategory' =>
      cases formName_injective hname
      rw [← hcategory, ← hcategory', husable.unique husable']
    | forms _ _ => exact absurd (congrArg layerOf hname) (by simp)
    | above => exact absurd (congrArg layerOf hname) (by simp)
  | forms _ _ =>
    generalize hname : atomicName category = name at h'
    cases h' with
    | form _ _ => exact absurd (congrArg layerOf hname) (by simp)
    | forms _ _ => exact (String.append_right_inj "Atomic:").1 hname
    | above => exact absurd (congrArg layerOf hname) (by simp)
  | above =>
    generalize hname : greaterName category = name at h'
    cases h' with
    | form _ _ => exact absurd (congrArg layerOf hname) (by simp)
    | forms _ _ => exact absurd (congrArg layerOf hname) (by simp)
    | above => exact (String.append_right_inj "Greater:").1 hname

/-- The origin of a nonterminal is looked up by its name. -/
theorem originOf_eq_category {origins : List (String × String)} {r : Registry} {name : String}
    {lhs : Handle} (hlhs : r.find? [name] = some lhs) {category : String} :
    originOf origins r lhs = .ok (.category category) ↔ origins.lookup name = some category := by
  have hof : r.symbolsOf lhs = .ok [name] := by
    rw [Registry.symbolsOf, Registry.lookup?_of_find? hlhs]
  cases hlookup : origins.lookup name <;>
    simp [originOf, hof, hlookup, bind, Except.bind, pure, Except.pure]

section

variable (hds : ∀ d, d ∈ ds ↔ c.Usable d.1 d.2)

include hds

/-- The table of origins has nonterminals of the category that it gives them. -/
theorem owns_of_mem_originTable {name category : String}
    (h : (name, category) ∈ originTable ds) : c.Owns category name := by
  simp only [originTable, List.mem_append, List.mem_map, Prod.mk.injEq] at h
  rcases h with (⟨d, hd, rfl, rfl⟩ | ⟨_, hcategory, rfl, rfl⟩) | ⟨_, -, rfl, rfl⟩
  · exact .form ((hds d).1 hd) rfl
  · obtain ⟨d, hd, hcategory⟩ := List.mem_map.1 (mem_ofList.1 hcategory)
    exact .forms ((hds d).1 hd) hcategory
  · exact .above

/-- It has all those that have rules. -/
theorem mem_originTable_of_owns {priorities : LevelGraph String} {name category : String}
    {row : List Expr} (hrow : Alternative entry priorities ds name row)
    (h : c.Owns category name) : (name, category) ∈ originTable ds := by
  simp only [originTable, List.mem_append, List.mem_map, Prod.mk.injEq]
  cases h with
  | @form i decl husable hcategory =>
    exact .inl (.inl ⟨(i, decl), (hds (i, decl)).2 husable, rfl, hcategory⟩)
  | @forms i decl husable hcategory =>
    exact .inl (.inr ⟨category, mem_ofList.2 (List.mem_map.2
      ⟨(i, decl), (hds (i, decl)).2 husable, hcategory⟩), rfl, rfl⟩)
  | above => exact .inr ⟨category, hrow.mem_tighter, rfl, rfl⟩

theorem lookup_originTable {name category : String} :
    (originTable ds).lookup name = some category ↔ (name, category) ∈ originTable ds :=
  lookup_eq_some_of_unique fun hmem hmem' =>
    (owns_of_mem_originTable hds hmem).unique (owns_of_mem_originTable hds hmem')

/-- **The items that come from a category** are those of its nonterminals. -/
theorem Assembles.stems_iff (h : c.Assembles entry a known ds start) {item : Item}
    {category : String} : Stems (originTable ds) a.table.grammar item (.category category) ↔
      ∃ rule, a.table.grammar.rules[item.rule]? = some rule ∧
        ∃ name, c.Owns category name ∧
          a.table.grammar.registry.find? [name] = some rule.lhs := by
  refine exists_congr fun rule => and_congr_right fun hrule => ?_
  have hmem := List.mem_of_getElem? hrule
  constructor
  · intro hof
    obtain ⟨name, hname⟩ := exists_find?_of_lower h.lowered hmem
    rw [originOf_eq_category hname, lookup_originTable hds] at hof
    exact ⟨name, owns_of_mem_originTable hds hof, hname⟩
  · rintro ⟨name, howns, hname⟩
    obtain ⟨row, hrow, -⟩ := h.alternative_of_find? hmem howns.isName hname
    rw [originOf_eq_category hname, lookup_originTable hds]
    exact mem_originTable_of_owns hds hrow howns

end

/-! ### Undecided states -/

namespace Assembles

/-- No read is vague, so that the undecided states are those with a conflict left. -/
theorem undecided_iff (h : c.Assembles entry a known ds start) {i : Nat} {row : TableRow}
    (hrow : a.table.rows[i]? = some row) : Undecided row.plan ↔ row.plan.hasError := by
  refine or_iff_left fun hvague => ?_
  have hplan : a.table.plan? i = some row.plan := by
    rw [Table.plan?, hrow]
    rfl
  obtain ⟨node, hnode, cls, hcls, hlength⟩ := Plan.exists_of_isVague hvague
  obtain ⟨handles, -, rfl, -⟩ := h.lexicon.classes h.wellFormed h.table hplan hnode
  obtain ⟨k, -, rfl⟩ := List.mem_map.1 hcls
  exact absurd hlength (Nat.lt_irrefl 1)

/-- Every state has an active item. -/
theorem exists_active (h : c.Assembles entry a known ds start) {i : Nat} {row : TableRow}
    (hrow : a.table.rows[i]? = some row) :
    ∃ item ∈ row.items, isActive a.table.grammar item := by
  rw [h.table] at hrow
  have hmem := List.mem_of_getElem? (Table.eq_of_getElem?_rows hrow).1
  obtain ⟨t, action, hacts⟩ := Automaton.acts_ofGrammar h.wellFormed h.productive hmem
  exact Catalogue.exists_active (Automaton.canonical h.wellFormed) hmem hacts

/-- **The unresolved states** are those that are blamed on something. -/
theorem mem_unresolved (h : c.Assembles entry a known ds start) {i : Nat} :
    i ∈ a.table.unresolved ↔ ∃ origin, Blames (originTable ds) a.table origin i := by
  rw [Table.unresolved, Table.mem_statesWhere]
  constructor
  · rintro ⟨row, hrow, herror⟩
    obtain ⟨item, hitem, hactive⟩ := h.exists_active hrow
    exact exists_blames h.blamed hrow (.inl herror) hitem hactive
  · rintro ⟨origin, row, hrow, hundecided, -⟩
    exact ⟨row, hrow, (h.undecided_iff hrow).1 hundecided⟩

/-- **The states blamed on a category** are the unresolved ones with an active item of it. -/
theorem blames_category (h : c.Assembles entry a known ds start)
    (hds : ∀ d, d ∈ ds ↔ c.Usable d.1 d.2) {category : String} {i : Nat} :
    Blames (originTable ds) a.table (.category category) i ↔
      i ∈ a.table.unresolved ∧ ∃ name, c.Owns category name ∧ a.Features i name := by
  constructor
  · intro hblames
    refine ⟨h.mem_unresolved.2 ⟨_, hblames⟩, ?_⟩
    obtain ⟨row, hrow, -, item, hitem, hactive, hstems⟩ := hblames
    obtain ⟨rule, hrule, name, howns, hname⟩ := (h.stems_iff hds).1 hstems
    exact ⟨name, howns, row, hrow, item, hitem, isActive_iff.1 hactive, rule, hrule, hname⟩
  · rintro ⟨hunresolved, name, howns, row, hrow, item, hitem, hactive, rule, hrule, hname⟩
    obtain ⟨-, row', hrow', hundecided, -⟩ := h.mem_unresolved.1 hunresolved
    cases hrow.symm.trans hrow'
    exact ⟨row, hrow, hundecided, item, hitem, isActive_iff.2 hactive,
      (h.stems_iff hds).2 ⟨rule, hrule, name, howns, hname⟩⟩

end Assembles

/-! ### Reports -/

/-- The warning about a conflict. -/
noncomputable def warningOf (c : Catalogue) : Blame → Diagnostic :=
  warning c.knownOf (c.usable (c.knownOf.map (·.1)))

/-- What an assembly reports are the entries left out, and one warning for each conflict. -/
theorem reported_of_assemble {config : ExecutorConfig} {sink sink' : Sink}
    (h : (c.assemble entry config sink).result = .ok (sink', .ok a)) :
    sink' = sink.adding (c.omissions ++ a.conflicts.map c.warningOf) := by
  obtain ⟨hfailed, hdone⟩ := c.assemble_result entry config sink
  cases hstart : startOf (c.knownOf.map (·.1)) entry with
  | error problem => cases h.symm.trans (hfailed problem hstart)
  | ok start =>
    have husable : ∀ d ∈ c.usable (c.knownOf.map (·.1)),
        d.2.objection (c.knownOf.map (·.1)) = none := fun d hd =>
      (acceptDeclarations_usable (c.acceptDeclarations_result (ε := Fault) _ sink) d hd).2
    obtain ⟨g, conflicts, terminals, hlower, hblame, hbind⟩ := exists_parts hstart husable
      (drawn (c.knownOf.map (·.1)) (c.joined (c.knownOf.map (·.1))))
    have hassembled := hdone _ _ _ hstart
      (construct_result c.knownOf hlower hblame hbind config _)
    cases h.symm.trans hassembled
    exact Sink.adding_adding _ _ _

/-- **Conflict reports are exact.** The states listed in the conflicts of an assembled parser are
the unresolved ones.  Each conflict has an origin of its own and lists some states in order.  Under
a category stand the unresolved states with an item, complete or before a terminal, of one of its
nonterminals.  The sink gets errors for the entries left out, and then one warning for each
conflict. -/
theorem conflicts_exact {config : ExecutorConfig} {sink sink' : Sink}
    (h : (c.assemble entry config sink).result = .ok (sink', .ok a)) :
    (∀ i, i ∈ a.table.unresolved ↔ ∃ b ∈ a.conflicts, i ∈ b.states) ∧
    (∀ b ∈ a.conflicts, b.states ≠ [] ∧ Sorted b.states) ∧
    (a.conflicts.map (·.origin)).Nodup ∧
    (∀ category i, (∃ b ∈ a.conflicts, b.origin = .category category ∧ i ∈ b.states) ↔
      i ∈ a.table.unresolved ∧ ∃ name, c.Owns category name ∧ a.Features i name) ∧
    sink' = sink.adding (c.omissions ++ a.conflicts.map c.warningOf) ∧
    (∀ d ∈ c.omissions, d.severity = .error) ∧
    ∀ b ∈ a.conflicts, (c.warningOf b).severity = .warning := by
  obtain ⟨-, -, known, ds, start, hparts, hds⟩ := accepted_of_assemble h
  obtain ⟨horigins, hstates, hlisted⟩ := blame_exact hparts.blamed
  refine ⟨fun i => ?_, hstates, horigins, fun category i => ?_, reported_of_assemble h,
    fun d => c.severity_of_omitted, fun _ _ => rfl⟩
  · rw [hparts.mem_unresolved]
    constructor
    · rintro ⟨origin, hblames⟩
      obtain ⟨b, hb, -, hi⟩ := (hlisted origin i).2 hblames
      exact ⟨b, hb, hi⟩
    · rintro ⟨b, hb, hi⟩
      exact ⟨b.origin, (hlisted b.origin i).1 ⟨b, hb, rfl, hi⟩⟩
  · rw [hlisted, hparts.blames_category hds]

/-- A form that is declared twice. -/
def twins : Catalogue where
  categories := [("letters", none)]
  declarations := [⟨"letters", "x1", [.text "x"], none⟩, ⟨"letters", "x2", [.text "x"], none⟩]

/-- The state behind it is blamed on its category. -/
theorem twins_blamed : ∃ sink a,
    (twins.assemble (.category "letters") {} {}).result = .ok (sink, .ok a) ∧
    (∀ i, i ∈ a.table.unresolved ↔ i = 1) ∧
    (∃ name, twins.Owns "letters" name ∧ a.Features 1 name) ∧
    sink = Sink.adding {} (twins.omissions ++ a.conflicts.map twins.warningOf) := by
  have h : ((twins.assemble (.category "letters") {} {}).result.toOption.any fun r =>
      r.2.toOption.any fun a => decide
        (a.conflicts.map (fun b => (b.origin, b.states)) = [(.category "letters", [1])])) =
      true := by
    decide +kernel
  simp only [Option.any_eq_true, except_toOption_eq_some, decide_eq_true_iff] at h
  obtain ⟨⟨sink, _⟩, hassemble, a, rfl, hconflicts⟩ := h
  obtain ⟨hunresolved, -, -, hcategory, hsink, -, -⟩ := conflicts_exact hassemble
  obtain ⟨b, hb, heq⟩ := List.map_eq_singleton_iff.1 hconflicts
  obtain ⟨horigin, hstates⟩ := Prod.mk.inj heq
  refine ⟨sink, a, hassemble, fun i => ?_, ?_, hsink⟩
  · rw [hunresolved, hb]
    simp [hstates]
  · exact ((hcategory "letters" 1).1 ⟨b, by simp [hb], horigin, by simp [hstates]⟩).2

end Catalogue

end Mixfix
