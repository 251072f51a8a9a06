import Mixfix.Proofs.Assembly.Renumbering
import Mixfix.Proofs.Assembly.Screening
import Mixfix.Proofs.Assembly.Termination

/-!
# Assembly without what is left out

A catalogue without the entries that are left out makes the same parser.  Its categories and
priorities are all kept, in the same order, so that the same graph is drawn.  Its declarations are
all usable, but they have other numbers, because the ones before them may be gone.

* `Catalogue.cleaned`: the catalogue of the entries that are kept.
* `Catalogue.place`: the number of a declaration in it.
* `Catalogue.assemble_cleaned`: it makes the same parser, and reports the same warnings.
-/

namespace Mixfix

namespace Catalogue

/-! ### Numbers -/

section

variable {α : Type} (p : α → Bool) (l : List α)

/-- The number of an entry that passes, among those that do.  The others are put behind all of
these, so that no two numbers are the same. -/
def place (i : Nat) : Nat := if (l[i]?).any p then (l.take i).countP p else l.length + i

variable {p l}

theorem place_of_passes {i : Nat} {a : α} (hi : l[i]? = some a) (ha : p a) :
    place p l i = (l.take i).countP p := if_pos (by simpa [hi] using ha)

/-- An entry that passes is counted before every later one. -/
theorem countP_take_lt {i j : Nat} (hij : i < j) {a : α} (hi : l[i]? = some a) (ha : p a) :
    (l.take i).countP p < (l.take j).countP p := by
  have hnext : (l.take (i + 1)).countP p = (l.take i).countP p + 1 := by
    simp [List.take_add_one, hi, ha]
  have hle : (l.take (i + 1)).countP p ≤ (l.take j).countP p :=
    ((List.take_prefix_take_left hij).sublist).countP_le
  omega

theorem place_of_fails {i : Nat} (hi : ¬ (l[i]?).any p) : place p l i = l.length + i := if_neg hi

theorem place_injective : Function.Injective (place p l) := by
  have hcount : ∀ i, (l.take i).countP p ≤ l.length := fun i =>
    List.countP_le_length.trans (List.length_take_le' i l)
  have hlt : ∀ {i j}, i < j → place p l i ≠ place p l j := by
    intro i j hij heq
    by_cases hi : (l[i]?).any p <;> by_cases hj : (l[j]?).any p
    · obtain ⟨a, hget, ha⟩ := (Option.any_eq_true _ _).1 hi
      obtain ⟨b, hget', hb⟩ := (Option.any_eq_true _ _).1 hj
      rw [place_of_passes hget ha, place_of_passes hget' hb] at heq
      exact Nat.ne_of_lt (countP_take_lt hij hget ha) heq
    · obtain ⟨a, hget, ha⟩ := (Option.any_eq_true _ _).1 hi
      rw [place_of_passes hget ha, place_of_fails hj] at heq
      have := hcount i
      omega
    · obtain ⟨b, hget', hb⟩ := (Option.any_eq_true _ _).1 hj
      rw [place_of_fails hi, place_of_passes hget' hb] at heq
      have := countP_take_lt (Nat.lt_add_one j) hget' hb
      have := hcount (j + 1)
      omega
    · rw [place_of_fails hi, place_of_fails hj] at heq
      omega
  intro i j heq
  rcases Nat.lt_trichotomy i j with h | h | h
  · exact absurd heq (hlt h)
  · exact h
  · exact absurd heq.symm (hlt h)

/-- The entries that pass, with their numbers among these. -/
theorem zipIdx_filter : (l.filter p).zipIdx =
    (l.zipIdx.filter fun (a, _) => p a).map fun (a, i) => (a, place p l i) := by
  have hcount : (l.filter p).zipIdx = (l.zipIdx.filter fun (a, _) => p a).map
      fun (a, i) => (a, (l.take i).countP p) := by
    induction l using List.reverseRecOn with
    | nil => rfl
    | append_singleton l a ih =>
      -- The numbers before the last entry do not count it.
      have hbefore : (l.zipIdx.filter fun (a, _) => p a).map
          (fun (b, i) => (b, ((l ++ [a]).take i).countP p)) =
          (l.zipIdx.filter fun (a, _) => p a).map fun (b, i) => (b, (l.take i).countP p) := by
        refine List.map_congr_left ?_
        rintro ⟨b, i⟩ hentry
        have hlt : i < l.length := List.snd_lt_of_mem_zipIdx (List.mem_filter.1 hentry).1
        dsimp only
        rw [List.take_append_of_le_length hlt.le]
      rw [List.filter_append, List.zipIdx_append, List.zipIdx_append, List.filter_append,
        List.map_append, hbefore, ih]
      by_cases ha : p a <;> simp [ha, List.countP_eq_length_filter]
  rw [hcount]
  refine List.map_congr_left ?_
  rintro ⟨a, i⟩ hentry
  obtain ⟨hmem, hpasses⟩ := List.mem_filter.1 hentry
  dsimp only
  rw [place_of_passes (List.mem_zipIdx_iff_getElem?.1 hmem) hpasses]

end

/-! ### What is kept -/

/-- The catalogue of the entries that are kept: no category again, no priority that names an unknown
category or closes a cycle with those before it, and no declaration that cannot be used. -/
noncomputable def cleaned (c : Catalogue) : Catalogue :=
  let names := c.knownOf.map (·.1)
  { categories := c.knownOf
    priorities := c.joined names
    declarations := c.declarations.filter fun d => (d.objection names).isNone }

/-- The number of entries. -/
def size (c : Catalogue) : Nat :=
  c.categories.length + c.priorities.length + c.declarations.length

/-- The number in it of a usable declaration. -/
noncomputable def placeOf (c : Catalogue) : Nat → Nat :=
  place (fun d => (d.objection (c.knownOf.map (·.1))).isNone) c.declarations

section

variable (c : Catalogue)

@[simp] theorem knownOf_cleaned : c.cleaned.knownOf = c.knownOf := Screen.kept_kept _ _

@[simp] theorem joined_cleaned : c.cleaned.joined (c.knownOf.map (·.1)) =
    c.joined (c.knownOf.map (·.1)) := Screen.kept_kept _ _

/-- Nothing more is left out. -/
@[simp] theorem omissions_cleaned : c.cleaned.omissions = [] := by
  have hcategories : c.cleaned.repetitions = [] := Screen.left_kept _ _
  have hpriorities : c.cleaned.refused (c.knownOf.map (·.1)) = [] := Screen.left_kept _ _
  have hdeclarations :
      c.cleaned.declarations.filterMap (complaint (c.knownOf.map (·.1))) = [] := by
    refine List.filterMap_eq_nil_iff.2 fun d hd => ?_
    have hnone : d.objection (c.knownOf.map (·.1)) = none := by
      simpa using (List.mem_filter.1 hd).2
    rw [complaint, hnone]
    rfl
  rw [omissions, knownOf_cleaned, hcategories, hpriorities, hdeclarations]
  rfl

/-- Each entry is kept, or left out and reported once. -/
theorem size_cleaned : c.omissions.length + c.cleaned.size = c.size := by
  have hcategories : c.knownOf.length + c.repetitions.length = c.categories.length := by
    rw [← List.length_append]
    exact (Screen.kept_append_left_perm _ _).length_eq
  have hpriorities : (c.joined (c.knownOf.map (·.1))).length +
      (c.refused (c.knownOf.map (·.1))).length = c.priorities.length := by
    rw [← List.length_append]
    exact (Screen.kept_append_left_perm _ _).length_eq
  have hdeclarations : (c.declarations.filterMap (complaint (c.knownOf.map (·.1)))).length +
      c.cleaned.declarations.length = c.declarations.length := by
    rw [List.length_filterMap_eq_countP, cleaned, ← List.countP_eq_length_filter,
      List.length_eq_countP_add_countP fun d => (d.objection (c.knownOf.map (·.1))).isSome]
    simp only [complaint, Option.isSome_map, Bool.not_eq_true, Option.isSome_eq_false_iff,
      Bool.decide_eq_true]
  have hcategories' : c.cleaned.categories.length = c.knownOf.length := rfl
  have hpriorities' : c.cleaned.priorities.length = (c.joined (c.knownOf.map (·.1))).length := rfl
  simp only [omissions, size, List.length_append, List.length_map]
  omega

/-- The usable declarations are the same, with their numbers among these. -/
theorem usable_cleaned : c.cleaned.usable (c.knownOf.map (·.1)) =
    renumbered c.placeOf (c.usable (c.knownOf.map (·.1))) := by
  have hall : ∀ entry ∈ (c.cleaned.declarations).zipIdx,
      (entry.1.objection (c.knownOf.map (·.1))).isNone := fun entry hentry =>
    (List.mem_filter.1 (List.fst_mem_of_mem_zipIdx hentry)).2
  have hzip : c.cleaned.declarations.zipIdx = _ := zipIdx_filter
  rw [usable, usableOf, List.filter_eq_self.2 hall, hzip, usable, usableOf, renumbered,
    List.map_map, List.map_map]
  rfl

/-- Whatever is left out is reported as an error. -/
theorem severity_of_omitted {d : Diagnostic} (hd : d ∈ c.omissions) : d.severity = .error := by
  rw [omissions, List.mem_append, List.mem_append, List.mem_map, List.mem_map,
    List.mem_filterMap] at hd
  rcases hd with (⟨_, -, rfl⟩ | ⟨_, -, rfl⟩) | ⟨_, -, hd⟩
  · rfl
  · rfl
  · obtain ⟨_, -, rfl⟩ := Option.map_eq_some_iff.1 hd
    rfl

end

/-- An assembled parser runs alike when its nonterminals have other names. -/
theorem Assembles.parser_rename {c : Catalogue} {entry : Entry} {a : Assembled}
    {known : List String} {ds : List (Nat × Declaration)} {start : String}
    (h : c.Assembles entry a known ds start) (ρ : String → String) (σ : Type) (limit : Nat) :
    ({ a with table := a.table.rename ρ } : Assembled).executor.parser limit =
      (a.executor (σ := σ)).parser limit :=
  Executor.Nameless.parser_rename (e := a.executor) (ρ := ρ)
    { wellFormed := h.wellFormed
      table := h.table
      asked := h.binds
      ending := h.binds_used List.mem_cons_self
      kind := fun _ => h.kinds_isSome } limit

/-- A warning points at the same place. -/
theorem warning_renumbered (known : List (String × Option Span)) (f : Nat → Nat)
    (ds : List (Nat × Declaration)) : warning known (renumbered f ds) = warning known ds := by
  have hspan : blameSpan known (renumbered f ds) = blameSpan known ds := by
    funext origin
    cases origin with
    | unknown => rfl
    | category name =>
      rw [blameSpan, blameSpan, renumbered, List.find?_map, Option.bind_map]
      rfl
  funext b
  rw [warning, warning, hspan]

/-- **Faulty entries are left out and change nothing else.** Whatever a catalogue makes, it reports
one error for each entry that is left out: the categories in order, then the priorities, and then
the declarations.  After them come warnings.  The catalogue of the other entries reports these
warnings only, and makes the same parser: its forms have other numbers, but its rules, states, plans
and conflicts are the same, and so are all its results. -/
theorem assemble_cleaned {c : Catalogue} {entry : Entry} {config : ExecutorConfig}
    {sink sink' : Sink} {a : Assembled}
    (h : (c.assemble entry config sink).result = .ok (sink', .ok a)) :
    ∃ warnings a',
      (∀ d ∈ c.omissions, d.severity = .error) ∧ c.omissions.length + c.cleaned.size = c.size ∧
      (∀ d ∈ warnings, d.severity = .warning) ∧
      sink' = sink.adding (c.omissions ++ warnings) ∧
      (c.cleaned.assemble entry config sink).result = .ok (sink.adding warnings, .ok a') ∧
      a' = { a with table := a.table.rename (renumber c.placeOf) } ∧
      ∀ (σ : Type) (limit : Nat), a'.executor.parser limit =
        (a.executor (σ := σ)).parser limit := by
  have hρ : Renaming (renumber c.placeOf) := renaming_renumber place_injective
  obtain ⟨hfailed, hdone⟩ := c.assemble_result entry config sink
  cases hstart : startOf (c.knownOf.map (·.1)) entry with
  | error problem =>
    cases h.symm.trans (hfailed problem hstart)
  | ok start =>
    obtain rfl := entryName_of_startOf hstart
    have husable : ∀ d ∈ c.usable (c.knownOf.map (·.1)),
        d.2.objection (c.knownOf.map (·.1)) = none := fun d hd =>
      (acceptDeclarations_usable (c.acceptDeclarations_result (ε := Fault) _ sink) d hd).2
    obtain ⟨g, conflicts, terminals, hlower, hblame, hbind⟩ := exists_parts hstart husable
      (drawn (c.knownOf.map (·.1)) (c.joined (c.knownOf.map (·.1))))
    cases h.symm.trans
      (hdone _ _ _ hstart (construct_result c.knownOf hlower hblame hbind config _))
    -- The parts of the other parser are the same under other names.
    have hcomplete := complete_grammarOf
      (drawn (c.knownOf.map (·.1)) (c.joined (c.knownOf.map (·.1)))) hstart husable
    have hlower' := hcomplete.lower_rename (fun _ => isNonTerminalSymbol_of_kind) hρ hlower
    rw [← grammarOf_renumbered] at hlower'
    have hblame' : blame (originTable (renumbered c.placeOf (c.usable (c.knownOf.map (·.1)))))
        (Table.ofGrammar (g.rename (renumber c.placeOf))) = .ok conflicts := by
      rw [originTable_renumbered, Table.ofGrammar_rename, blame_rename hρ.injective
        (wellFormed_of_lower hlower).lhs_nonTerminal]
      exact hblame
    have hbind' : (Table.ofGrammar (g.rename (renumber c.placeOf))).bind Terminal.endOfInput
        (Terminal.named (literalsOf (renumbered c.placeOf (c.usable (c.knownOf.map (·.1)))))) =
          .ok terminals := by
      rw [literalsOf_renumbered, Table.ofGrammar_rename]
      refine Table.bind_rename (fun given hgiven => ?_) hbind
      obtain ⟨hkey, ht, -⟩ := mem_named.1 hgiven
      rw [hkey]
      exact isTerminalGroup_key (solid_literalsOf husable) ht
    obtain ⟨-, hdone'⟩ := c.cleaned.assemble_result entry config sink
    rw [knownOf_cleaned, joined_cleaned, omissions_cleaned, Sink.adding_nil, usable_cleaned]
      at hdone'
    have hassembled := hdone' _ _ _ hstart
      (construct_result c.knownOf hlower' hblame' hbind' config _)
    obtain ⟨-, _, _, _, hparts⟩ := assembles_of_assemble h
    refine ⟨_, _, fun d => c.severity_of_omitted, c.size_cleaned, fun d hd => ?_,
      Sink.adding_adding _ _ _, ?_, rfl, hparts.parser_rename _⟩
    · obtain ⟨b, -, rfl⟩ := List.mem_map.1 hd
      rfl
    · rw [warning_renumbered, literalsOf_renumbered, Table.ofGrammar_rename] at hassembled
      exact hassembled

/-- Sums and products, with a category declared again, a priority that closes a cycle, one that
names an unknown category, and a form without fragments. -/
def faulty : Catalogue where
  categories := [("sum", none), ("sum", none), ("product", none)]
  priorities := [⟨"sum", "product", none⟩, ⟨"product", "sum", none⟩, ⟨"sum", "power", none⟩]
  declarations :=
    [⟨"sum", "nothing", [], none⟩,
      ⟨"sum", "add", [.free (some "sum"), .text "+", .free (some "sum")], none⟩]

theorem knownOf_faulty : faulty.knownOf = [("sum", none), ("product", none)] ∧
    faulty.repetitions = [("sum", none)] := by
  simp [knownOf, repetitions, faulty, Screen.kept, Screen.left, unrepeated]

theorem joined_faulty : faulty.joined ["sum", "product"] = [⟨"sum", "product", none⟩] ∧
    faulty.refused ["sum", "product"] = [⟨"product", "sum", none⟩, ⟨"sum", "power", none⟩] := by
  have hfirst : (joining ["sum", "product"]).fits ∅ ⟨"sum", "product", none⟩ := by
    refine ⟨by decide, by decide, by decide, fun hpath => ?_⟩
    obtain heq | ⟨_, hedge, -⟩ := hpath.cases_head
    · exact absurd heq (by decide)
    · exact hedge
  have hsecond : ∀ {edges : Set (String × String)}, ("sum", "product") ∈ edges →
      ¬ (joining ["sum", "product"]).fits edges ⟨"product", "sum", none⟩ :=
    fun hedge hjoins => hjoins.2.2.2 (.single hedge)
  have hthird : ∀ {edges : Set (String × String)},
      ¬ (joining ["sum", "product"]).fits edges ⟨"sum", "power", none⟩ :=
    fun hjoins => absurd hjoins.2.1 (by decide)
  rw [joined, refused, faulty, Screen.kept_cons_of_fits hfirst, Screen.left_cons_of_fits hfirst,
    Screen.kept_cons_of_not_fits (hsecond (.inr rfl)),
    Screen.left_cons_of_not_fits (hsecond (.inr rfl)), Screen.kept_cons_of_not_fits hthird,
    Screen.left_cons_of_not_fits hthird]
  exact ⟨rfl, rfl⟩

/-- Sums and products without these four. -/
def tidy : Catalogue where
  categories := [("sum", none), ("product", none)]
  priorities := [⟨"sum", "product", none⟩]
  declarations := [⟨"sum", "add", [.free (some "sum"), .text "+", .free (some "sum")], none⟩]

/-- They make the same parser, where the form has another number. -/
theorem faulty_tidy : faulty.cleaned = tidy ∧ faulty.placeOf 1 = 0 ∧ ∃ warnings a a',
    (faulty.assemble .any {} {}).result = .ok (Sink.adding {} ([
      .error none "category sum is already declared",
      .error none "priority product < sum closes a cycle",
      .error none "unknown category power",
      .error none "syntax nothing declares an empty fragment"] ++ warnings), .ok a) ∧
    (tidy.assemble .any {} {}).result = .ok (Sink.adding {} warnings, .ok a') ∧
    a' = { a with table := a.table.rename (renumber faulty.placeOf) } ∧
    ∀ (σ : Type) (limit : Nat), a'.executor.parser limit =
      (a.executor (σ := σ)).parser limit := by
  have hnames : faulty.knownOf.map (·.1) = ["sum", "product"] := by
    rw [knownOf_faulty.1]
    rfl
  have hcleaned : faulty.cleaned = tidy := by
    rw [cleaned, hnames, knownOf_faulty.1, joined_faulty.1]
    rfl
  have homissions : faulty.omissions = [
      .error none "category sum is already declared",
      .error none "priority product < sum closes a cycle",
      .error none "unknown category power",
      .error none "syntax nothing declares an empty fragment"] := by
    rw [omissions, hnames, knownOf_faulty.2, joined_faulty.2]
    rfl
  have hplace : faulty.placeOf 1 = 0 := by
    rw [placeOf, hnames]
    rfl
  obtain ⟨sink', a, hassembled⟩ := @exists_assembled faulty .any (fun _ h => nomatch h) {} {}
  obtain ⟨warnings, a', -, -, -, rfl, htidy, hsame, hparser⟩ := assemble_cleaned hassembled
  rw [homissions] at hassembled
  rw [hcleaned] at htidy
  exact ⟨hcleaned, hplace, warnings, a, a', hassembled, htidy, hsame, hparser⟩

end Catalogue

end Mixfix
