import Mixfix.Proofs.Assembly.Parts
import Mixfix.Proofs.Executor.Binding
import Mixfix.Proofs.Registry.Declarations

/-!
# The lexicon of an assembled parser

Every terminal of declared syntax has a handle of its own, by which its parser is bound and by which
the grammar declares it distinct from the others.  The one possibly empty terminal is that of
optional blanks, and its variant that of blanks.

* `Registry.handleOf`: the handle of a terminal.
* `Assembled.Lexicon`: the terminals of an assembled parser and their handles.
* `Catalogue.Assembles.lexicon`: every assembled parser has a lexicon.
-/

namespace Mixfix

/-! ### Keys -/

/-- A name without blank characters is one symbol. -/
theorem symbolsOfName_of_solid {name : String} (h : Terminal.Solid name) :
    symbolsOfName name = [name] := by
  obtain ⟨hne, hsolid⟩ := h
  have hfold : ∀ cs : List Char, (∀ c ∈ cs, isBlank c = false) →
      cs.foldr (fun c (parts : List Char × List (List Char)) =>
        if isBlank c then ([], if parts.1.isEmpty then parts.2 else parts.1 :: parts.2)
        else (c :: parts.1, parts.2)) ([], []) = (cs, []) := by
    intro cs hcs
    induction cs with
    | nil => rfl
    | cons c cs ih =>
      obtain ⟨hc, hcs⟩ := List.forall_mem_cons.1 hcs
      rw [List.foldr_cons, ih hcs, if_neg (by rw [hc]; exact Bool.false_ne_true)]
  rw [symbolsOfName, hfold _ hsolid]
  have hnonempty : name.toList.isEmpty = false := by
    rw [List.isEmpty_eq_false_iff]
    exact fun hnil => hne (String.toList_eq_nil_iff.1 hnil)
  simp [hnonempty]

namespace Terminal

theorem toList_literalKey (text : String) :
    (literalKey text).toList = '\'' :: (text.toList ++ ['\'']) := by
  simp [literalKey]

/-- Different terminals have different keys. -/
theorem key_injective {t u : Terminal} (h : t.key = u.key) : t = u := by
  have hliteral : ∀ {text : String} {key : String}, literalKey text = key →
      key.toList.head? = some '\'' := by
    rintro text key rfl
    rw [toList_literalKey]
    rfl
  cases t with
  | literal text =>
    cases u with
    | literal text' =>
      have hl : (literalKey text).toList = (literalKey text').toList := congrArg String.toList h
      rw [toList_literalKey, toList_literalKey, List.cons_inj_right,
        List.append_cancel_right_eq] at hl
      rw [String.toList_inj.1 hl]
    | _ => exact absurd (hliteral h) (by decide)
  | _ =>
    cases u with
    | literal text' => exact absurd (hliteral h.symm) (by decide)
    | _ =>
      revert h
      decide

/-- The terminals of declared syntax. -/
def every (literals : List String) : List Terminal := optionalBlank :: told literals

theorem mem_every {literals : List String} {t : Terminal} :
    t ∈ every literals ↔ t = optionalBlank ∨ t ∈ told literals := List.mem_cons

/-- A terminal that is no literal is always one of them. -/
@[simp] theorem mem_every_iff {literals : List String} {t : Terminal} :
    t ∈ every literals ↔ ∀ text, t = literal text → text ∈ allLiterals literals := by
  cases t <;> simp [every, told]

theorem solid_key {literals : List String} (hsolid : ∀ text ∈ literals, Solid text) {t : Terminal}
    (ht : t ∈ every literals) : Solid t.key := by
  have hfixed : Solid "ws?" ∧ Solid "var" ∧ Solid "ws" ∧ Solid "$" :=
    ⟨solid_of_all (by decide) (by decide), solid_of_all (by decide) (by decide),
      solid_of_all (by decide) (by decide), solid_of_all (by decide) (by decide)⟩
  rcases mem_every.1 ht with rfl | ht
  · exact hfixed.1
  · rcases mem_told ht with (rfl | ⟨text, htext, rfl⟩) | rfl | rfl
    · exact hfixed.2.1
    · obtain ⟨-, hblank⟩ := solid_of_mem_allLiterals hsolid htext
      refine ⟨fun h => ?_, fun c hc => ?_⟩
      · have hl : (literalKey text).toList = "".toList := congrArg String.toList h
        rw [toList_literalKey] at hl
        cases hl
      · have hc : c ∈ '\'' :: (text.toList ++ ['\'']) := toList_literalKey text ▸ hc
        rw [List.mem_cons, List.mem_append, List.mem_singleton] at hc
        rcases hc with rfl | hc | rfl
        · decide
        · exact hblank c hc
        · decide
    · exact hfixed.2.2.1
    · exact hfixed.2.2.2

theorem isNonTerminalGroup_key {t : Terminal} : Registry.isNonTerminalGroup [t.key] = false := by
  cases t with
  | literal text =>
    show isNonTerminalSymbol (literalKey text) = false
    rw [isNonTerminalSymbol, toList_literalKey]
    exact (by decide : isUppercase '\'' = false)
  | _ => decide

end Terminal

/-! ### Handles -/

namespace Registry

variable {r : Registry} {t u : Terminal} {h : Handle}

/-- The handle of a terminal. -/
def handleOf (r : Registry) (t : Terminal) : Option Handle :=
  if t = .endOfInput then some .endOfInput else r.find? [t.key]

theorem handleOf_end : r.handleOf .endOfInput = some .endOfInput := rfl

theorem handleOf_ne (ht : t ≠ .endOfInput) : r.handleOf t = r.find? [t.key] := if_neg ht

theorem isTerminal_of_handleOf (ht : r.handleOf t = some h) : h.isTerminal := by
  rw [handleOf] at ht
  split at ht
  · cases ht
    rfl
  · have hn := isNonTerminal_of_find? ht
    rw [Terminal.isNonTerminalGroup_key, Handle.isNonTerminal_eq] at hn
    simpa using hn

/-- Different terminals have different handles. -/
theorem handleOf_injective (ht : r.handleOf t = some h) (hu : r.handleOf u = some h) : t = u := by
  rw [handleOf] at ht hu
  split at ht
  · split at hu
    · next h h' => exact h.trans h'.symm
    · cases ht
      exact absurd hu find?_ne_end
  · split at hu
    · cases hu
      exact absurd ht find?_ne_end
    · have hl := (lookup?_of_find? ht).symm.trans (lookup?_of_find? hu)
      simp only [Option.some.injEq, List.cons.injEq, and_true] at hl
      exact Terminal.key_injective hl

end Registry

/-! ### The lexicon -/

/-- The terminals of an assembled parser over some literals: each has a handle, by which it is
bound; the rules use no others; all but the optional blanks are declared distinct, and these are
the one possibly empty terminal. -/
structure Assembled.Lexicon (a : Assembled) (literals : List String) : Prop where
  solid : ∀ text ∈ literals, Terminal.Solid text
  literals_eq : a.literals = Terminal.allLiterals literals
  exists_handle : ∀ t ∈ Terminal.every literals, ∃ h, a.table.grammar.registry.handleOf t = some h
  lookup : ∀ {h t}, a.terminals.lookup h = some t ↔
    t ∈ Terminal.every literals ∧ a.table.grammar.registry.handleOf t = some h
  used : ∀ h ∈ Handle.endOfInput :: a.table.grammar.terminals,
    ∃ t ∈ Terminal.every literals, a.table.grammar.registry.handleOf t = some h
  distinct : ∀ {t u h k}, t ∈ Terminal.told literals → u ∈ Terminal.told literals → t ≠ u →
    a.table.grammar.registry.handleOf t = some h → a.table.grammar.registry.handleOf u = some k →
    a.table.grammar.registry.distinct h k
  nonEmptyOf : ∀ {h k}, a.table.grammar.registry.nonEmptyOf h = some k ↔
    a.table.grammar.registry.handleOf .optionalBlank = some h ∧
      a.table.grammar.registry.handleOf .blank = some k

namespace Catalogue

variable {c : Catalogue} {entry : Entry} {a : Assembled} {known : List String}
  {ds : List (Nat × Declaration)} {start : String}

theorem literal_mem_every {d : Nat × Declaration} (hd : d ∈ ds) {text : String}
    (ht : .text text ∈ d.2.fragments) : .literal text ∈ Terminal.every (literalsOf ds) := by
  simp [Terminal.allLiterals, Ascending.mem_ofList, mem_literalsOf hd ht]

theorem mem_named {literals : List String} {key : String} {t : Terminal} :
    (key, t) ∈ Terminal.named literals ↔
      key = t.key ∧ t ∈ Terminal.every literals ∧ t ≠ .endOfInput := by
  simp only [Terminal.named, Terminal.every, Terminal.told, List.mem_map, List.mem_append,
    List.mem_cons, Prod.mk.injEq, List.not_mem_nil, or_false]
  constructor
  · rintro ⟨t, ht, rfl, rfl⟩
    refine ⟨rfl, ?_, ?_⟩
    · rcases ht with ⟨text, htext, rfl⟩ | rfl | rfl | rfl <;> simp [*]
    · rintro rfl
      simp at ht
  · rintro ⟨rfl, ht, hne⟩
    refine ⟨t, ?_, rfl, rfl⟩
    rcases ht with rfl | ⟨text, htext, rfl⟩ | rfl | rfl | rfl
    · simp
    · exact .inl ⟨text, htext, rfl⟩
    · simp
    · simp
    · exact absurd rfl hne

/-- The keys of the distinct terminals. -/
theorem mem_distinctKeys {literals : List String} {key : String} :
    key ∈ Terminal.distinctKeys literals ↔
      ∃ t ∈ Terminal.told literals, t ≠ .endOfInput ∧ key = t.key := by
  simp only [Terminal.distinctKeys, Terminal.told, List.mem_append, List.mem_map, List.mem_cons,
    List.not_mem_nil, or_false]
  constructor
  · rintro (⟨text, htext, rfl⟩ | rfl | rfl)
    · refine ⟨.literal text, .inl ⟨text, ?_, rfl⟩, by rintro ⟨⟩, rfl⟩
      simpa [Terminal.allLiterals, Ascending.mem_ofList] using htext
    · exact ⟨.identifier, by simp, by decide, rfl⟩
    · exact ⟨.blank, by simp, by decide, rfl⟩
  · rintro ⟨t, ⟨text, htext, rfl⟩ | rfl | rfl | rfl, hne, rfl⟩
    · refine .inl ⟨text, ?_, rfl⟩
      simpa [Terminal.allLiterals, Ascending.mem_ofList] using htext
    · exact .inr (.inl rfl)
    · exact .inr (.inr rfl)
    · exact absurd rfl hne

theorem Assembles.symbolsOfName_key (h : c.Assembles entry a known ds start) {t : Terminal}
    (ht : t ∈ Terminal.every (literalsOf ds)) : symbolsOfName t.key = [t.key] :=
  symbolsOfName_of_solid (Terminal.solid_key h.solid ht)

/-- What is bound: every terminal of declared syntax, to its handle. -/
theorem Assembles.mem_terminals (h : c.Assembles entry a known ds start) :
    (∀ {k t}, (k, t) ∈ a.terminals → t ∈ Terminal.every (literalsOf ds) ∧
      a.table.grammar.registry.handleOf t = some k) ∧
    (∀ t ∈ Terminal.every (literalsOf ds), ∃ k, (k, t) ∈ a.terminals) ∧
    ∀ u ∈ a.table.grammar.terminals, (a.terminals.lookup u).isSome := by
  obtain ⟨⟨front, hfront, hall⟩, hused⟩ := Table.bind_eq_ok h.bound
  have hmem : ∀ {e}, e ∈ a.terminals ↔ e ∈ front.reverse ∨ e = (.endOfInput, .endOfInput) := by
    intro e
    rw [hfront, List.mem_append, List.mem_singleton, List.mem_reverse]
  refine ⟨fun {k t} hk => ?_, fun t ht => ?_, hused⟩
  · rcases hmem.1 hk with hk | hk
    · obtain ⟨⟨key, t'⟩, hnamed, hbound⟩ := exists_of_forall₂ hall hk
      obtain ⟨rfl, ht, hne⟩ := mem_named.1 hnamed
      obtain ⟨rfl, -, hfind⟩ := hbound
      refine ⟨ht, ?_⟩
      rw [if_neg, h.symbolsOfName_key ht] at hfind
      · rw [Registry.handleOf_ne hne]
        exact hfind
      · exact fun hkey => hne (Terminal.key_injective (u := .endOfInput) hkey)
    · cases hk
      exact ⟨by simp, Registry.handleOf_end⟩
  · by_cases hne : t = .endOfInput
    · exact ⟨.endOfInput, hmem.2 (.inr (by rw [hne]))⟩
    · have hnamed : (t.key, t) ∈ Terminal.named (literalsOf ds) := mem_named.2 ⟨rfl, ht, hne⟩
      obtain ⟨⟨k, t'⟩, hk, hbound⟩ := exists_of_forall₂ hall.flip hnamed
      obtain ⟨rfl, -, -⟩ := hbound
      exact ⟨k, hmem.2 (.inl hk)⟩

theorem Assembles.lookup (h : c.Assembles entry a known ds start) {k : Handle} {t : Terminal} :
    a.terminals.lookup k = some t ↔
      t ∈ Terminal.every (literalsOf ds) ∧ a.table.grammar.registry.handleOf t = some k := by
  obtain ⟨hbound, hevery, -⟩ := h.mem_terminals
  rw [lookup_eq_some_of_unique fun ht ht' =>
    Registry.handleOf_injective (hbound ht).2 (hbound ht').2]
  refine ⟨hbound, fun ⟨ht, hk⟩ => ?_⟩
  obtain ⟨k', hk'⟩ := hevery t ht
  obtain rfl : k' = k := Option.some.inj ((hbound hk').2.symm.trans hk)
  exact hk'

/-- The one group of distinct terminals has all but the optional blanks. -/
theorem Assembles.groups (h : c.Assembles entry a known ds start) :
    ∃ handles, a.table.grammar.registry.groups = [handles] ∧
      ∀ {t k}, t ∈ Terminal.told (literalsOf ds) → t ≠ .endOfInput →
        a.table.grammar.registry.handleOf t = some k → k ∈ handles := by
  obtain ⟨-, ⟨handles, hgroups, hhandles⟩, -⟩ := declared_of_lower h.lowered
  refine ⟨handles, hgroups, fun {t k} ht hne hk => ?_⟩
  have hkey : t.key ∈ Terminal.distinctKeys (literalsOf ds) :=
    mem_distinctKeys.2 ⟨t, ht, hne, rfl⟩
  obtain ⟨k', hk', hfind⟩ :=
    exists_of_forall₂ hhandles.flip (List.mem_map_of_mem (f := symbolsOfName) hkey)
  rw [Registry.handleOf_ne hne, ← h.symbolsOfName_key (Terminal.mem_every.2 (.inr ht))] at hk
  have hfind' : a.table.grammar.registry.find? (symbolsOfName t.key) = some k' := hfind
  cases hk.symm.trans hfind'
  exact hk'

theorem Assembles.distinct (h : c.Assembles entry a known ds start) {t u : Terminal}
    {k k' : Handle} (ht : t ∈ Terminal.told (literalsOf ds))
    (hu : u ∈ Terminal.told (literalsOf ds)) (hne : t ≠ u)
    (hk : a.table.grammar.registry.handleOf t = some k)
    (hk' : a.table.grammar.registry.handleOf u = some k') :
    a.table.grammar.registry.distinct k k' := by
  obtain ⟨handles, hgroups, hmem⟩ := h.groups
  have hkk : k ≠ k' := fun heq => hne (Registry.handleOf_injective (heq ▸ hk) hk')
  refine Registry.distinct_iff.2 ⟨hkk, ?_⟩
  by_cases hend : t = .endOfInput
  · subst hend
    cases hk
    exact .inl rfl
  by_cases hend' : u = .endOfInput
  · subst hend'
    cases hk'
    exact .inr (.inl rfl)
  exact .inr (.inr ⟨handles, hgroups ▸ List.mem_singleton_self handles, hmem ht hend hk,
    hmem hu hend' hk'⟩)

/-- The one pair is that of the optional blanks and the blanks. -/
theorem Assembles.nonEmptyOf (h : c.Assembles entry a known ds start) {k k' : Handle} :
    a.table.grammar.registry.nonEmptyOf k = some k' ↔
      a.table.grammar.registry.handleOf .optionalBlank = some k ∧
        a.table.grammar.registry.handleOf .blank = some k' := by
  obtain ⟨-, -, empty, nonEmpty, hpairs, hempty, hnonEmpty⟩ := declared_of_lower h.lowered
  have hpair : a.table.grammar.registry.handleOf .optionalBlank = some empty ∧
      a.table.grammar.registry.handleOf .blank = some nonEmpty := by
    rw [Registry.handleOf_ne (by decide), Registry.handleOf_ne (by decide), ← h.symbolsOfName_key,
      ← h.symbolsOfName_key]
    · exact ⟨hempty, hnonEmpty⟩
    · simp
    · simp
  rw [hpair.1, hpair.2, Registry.nonEmptyOf, hpairs, List.lookup_cons, List.lookup_nil,
    Option.some.injEq, Option.some.injEq]
  split
  · next heq =>
    simp [beq_iff_eq.1 heq]
  · next hne =>
    rw [beq_eq_false_iff_ne] at hne
    simp [hne.symm]

/-- **The lexicon** of an assembled parser. -/
theorem Assembles.lexicon (h : c.Assembles entry a known ds start) :
    a.Lexicon (literalsOf ds) := by
  obtain ⟨hbound, hevery, hused⟩ := h.mem_terminals
  refine ⟨h.solid, h.literals, fun t ht => ?_, h.lookup, fun k hk => ?_, h.distinct, h.nonEmptyOf⟩
  · obtain ⟨k, hk⟩ := hevery t ht
    exact ⟨k, (hbound hk).2⟩
  · rcases List.mem_cons.1 hk with rfl | hk
    · exact ⟨.endOfInput, by simp, Registry.handleOf_end⟩
    · obtain ⟨t, ht⟩ := Option.isSome_iff_exists.1 (hused k hk)
      exact ⟨t, h.lookup.1 ht⟩

end Catalogue

end Mixfix
