import Mixfix.Proofs.Assembly.Screening

/-!
# The order of categories and priorities

Categories are a set and priorities a relation: as long as no category is declared twice and the
priorities form no cycle, their order in the catalogue does not matter.  The graph of priorities is
built in another order, with other vertex numbers and other levels, but it has the same successors,
and the grammar depends on nothing else of it.

* `Catalogue.Orders`: the priorities between declared categories, as a relation.
* `Catalogue.refused_of_acyclic`: without a cycle, only unknown categories are refused.
* `Catalogue.grammarOf_congr`: the grammar depends on the successors.
* `Catalogue.assemble_reordered`: the same parser is assembled.
-/

namespace Mixfix

open Relation

/-- Both categories of a priority are among these. -/
def Priority.within (names : List String) (p : Priority) : Bool :=
  names.contains p.lower && names.contains p.higher

@[simp] theorem Priority.within_iff {names : List String} {p : Priority} :
    p.within names ↔ p.lower ∈ names ∧ p.higher ∈ names := by
  simp [within]

namespace Catalogue

/-! ### What is left out -/

/-- A priority between declared categories leads from its lower one to its higher one. -/
def Orders (c : Catalogue) (lower higher : String) : Prop :=
  ∃ p ∈ c.priorities, p.within (c.categories.map (·.1)) ∧ p.lower = lower ∧ p.higher = higher

/-- The priorities that name a category which nobody declared. -/
def strangers (c : Catalogue) : List Priority :=
  c.priorities.filter fun p => !p.within (c.categories.map (·.1))

theorem unrepeated_of_nodup {before l : List (String × Option Span)}
    (h : ((before ++ l).map (·.1)).Nodup) :
    unrepeated.kept before l = l ∧ unrepeated.left before l = [] := by
  induction l generalizing before with
  | nil => exact ⟨rfl, rfl⟩
  | cons category l ih =>
    have hfits : unrepeated.fits before category := by
      rw [List.map_append, List.map_cons, List.nodup_append] at h
      exact fun hmem => h.2.2 _ hmem _ List.mem_cons_self rfl
    have hrest := @ih (before ++ [category]) (by rwa [List.append_assoc])
    rw [Screen.kept_cons_of_fits hfits, Screen.left_cons_of_fits hfits]
    exact ⟨congrArg _ hrest.1, hrest.2⟩

/-- Different categories are all known. -/
theorem knownOf_of_nodup {c : Catalogue} (h : (c.categories.map (·.1)).Nodup) :
    c.knownOf = c.categories ∧ c.repetitions = [] :=
  unrepeated_of_nodup h

/-- Without a cycle a priority fits exactly if its categories are known. -/
theorem joining_of_acyclic {names : List String} {Above : String → String → Prop}
    (hacyclic : ∀ name, ¬ TransGen Above name name) {edges : Set (String × String)}
    (hedges : ∀ e ∈ edges, Above e.1 e.2) {ps : List Priority}
    (hps : ∀ p ∈ ps, p.within names → Above p.lower p.higher) :
    (joining names).kept edges ps = ps.filter (·.within names) ∧
      (joining names).left edges ps = ps.filter fun p => !p.within names := by
  induction ps generalizing edges with
  | nil => exact ⟨rfl, rfl⟩
  | cons p ps ih =>
    have hrest := fun q hq => hps q (List.mem_cons_of_mem p hq)
    by_cases hknown : p.within names
    · have habove := hps p List.mem_cons_self hknown
      have hfits : (joining names).fits edges p := by
        obtain ⟨hlower, hhigher⟩ := Priority.within_iff.1 hknown
        refine ⟨hlower, hhigher, fun heq => ?_, fun hback => ?_⟩
        · exact hacyclic p.lower (.single (heq.symm ▸ habove))
        · have hback' := ReflTransGen.mono (fun x y hxy => hedges (x, y) hxy) _ _ hback
          exact hacyclic p.lower (.head' habove hback')
      have hnext : ∀ e ∈ (joining names).next edges p, Above e.1 e.2 := by
        rintro e (he | rfl)
        · exact hedges e he
        · exact habove
      obtain ⟨hkept, hleft⟩ := ih hnext hrest
      rw [Screen.kept_cons_of_fits hfits, Screen.left_cons_of_fits hfits, hkept, hleft]
      simp [hknown]
    · have hfits : ¬ (joining names).fits edges p := fun hjoins =>
        hknown (Priority.within_iff.2 ⟨hjoins.1, hjoins.2.1⟩)
      obtain ⟨hkept, hleft⟩ := ih hedges hrest
      rw [Screen.kept_cons_of_not_fits hfits, Screen.left_cons_of_not_fits hfits, hkept, hleft]
      simp [hknown]

section

variable {c : Catalogue} (hdistinct : (c.categories.map (·.1)).Nodup)
  (hacyclic : ∀ name, ¬ TransGen c.Orders name name)

include hacyclic in
theorem screened_of_acyclic :
    c.joined (c.categories.map (·.1)) = c.priorities.filter (·.within (c.categories.map (·.1))) ∧
      c.refused (c.categories.map (·.1)) = c.strangers :=
  joining_of_acyclic hacyclic (fun _ he => absurd he (Set.notMem_empty _))
    fun p hp hknown => ⟨p, hp, hknown, rfl, rfl⟩

include hdistinct hacyclic in
/-- Without repetitions and cycles, what is left out are the priorities that name an unknown
category, and the declarations that cannot be used. -/
theorem omissions_of_acyclic : c.omissions =
    c.strangers.map (refusal (c.categories.map (·.1))) ++
      c.declarations.filterMap (complaint (c.categories.map (·.1))) := by
  obtain ⟨hknown, hnone⟩ := knownOf_of_nodup hdistinct
  rw [omissions, hknown, hnone, (screened_of_acyclic hacyclic).2]
  rfl

include hacyclic in
/-- All other priorities are drawn. -/
theorem draws_of_acyclic :
    Draws (drawn (c.categories.map (·.1)) (c.joined (c.categories.map (·.1))))
      {e | c.Orders e.1 e.2} := by
  refine (c.draws_drawn _).congr fun e => ?_
  have hkept : (joining (c.categories.map (·.1))).kept ∅ c.priorities =
      c.priorities.filter (·.within (c.categories.map (·.1))) := (screened_of_acyclic hacyclic).1
  rw [mem_acceptedFrom, or_iff_right (Set.notMem_empty e), hkept, Set.mem_ofPred_eq, Orders]
  simp only [List.mem_filter, and_assoc, Prod.ext_iff, eq_comm]

end

/-! ### What depends on the names and on the successors -/

section

variable {names names' : List String} (hnames : ∀ name, name ∈ names' ↔ name ∈ names)

include hnames

theorem contains_congr (name : String) : names'.contains name = names.contains name := by
  rw [Bool.eq_iff_iff, List.contains_iff_mem, List.contains_iff_mem, hnames]

theorem startOf_congr (entry : Entry) : startOf names' entry = startOf names entry := by
  cases entry with
  | any => rfl
  | category name => rw [startOf, startOf, contains_congr hnames]

theorem complaint_congr : complaint names' = complaint names := by
  funext d
  rw [complaint, complaint, objection_congr hnames]

theorem usable_congr {c c' : Catalogue} (hdeclarations : c'.declarations = c.declarations) :
    c'.usable names' = c.usable names := by
  simp only [usable, usableOf, hdeclarations, objection_congr hnames]

end

/-- The grammar depends on a graph of priorities by the successors of its vertices. -/
theorem grammarOf_congr {entry : Entry} {start : String}
    {priorities priorities' : LevelGraph String} {ds : List (Nat × Declaration)}
    (h : ∀ a b, b ∈ priorities'.successors a ↔ b ∈ priorities.successors a) :
    grammarOf entry start priorities' ds = grammarOf entry start priorities ds := by
  have hgreater : greaterRule priorities' ds = greaterRule priorities ds := by
    funext category
    have habove : Ascending.ofList (priorities'.successors category) =
        Ascending.ofList (priorities.successors category) :=
      (Ascending.sorted_ofList _).ext (Ascending.sorted_ofList _) fun name => by
        rw [Ascending.mem_ofList, Ascending.mem_ofList, h]
    rw [greaterRule, greaterRule, habove]
  rw [grammarOf, grammarOf, hgreater]

theorem warning_congr {known known' : List (String × Option Span)} (hperm : known'.Perm known)
    (hdistinct : (known.map (·.1)).Nodup) (ds : List (Nat × Declaration)) :
    warning known' ds = warning known ds := by
  funext b
  have hspan : blameSpan known' ds b.origin = blameSpan known ds b.origin := by
    cases b.origin with
    | unknown => rfl
    | category name => rw [blameSpan, blameSpan, lookup_eq_of_perm hperm hdistinct]
  rw [warning, warning, hspan]

/-! ### The same parser -/

/-- Two parsers with the same rules, states and plans, the same conflicts and the same results.
Both accepted all priorities between declared categories. -/
structure SameParser (c : Catalogue) (a a' : Assembled) : Prop where
  table : a'.table = a.table
  conflicts : a'.conflicts = a.conflicts
  accepted : ∀ lower higher, a.priorities.hasEdge lower higher ↔ c.Orders lower higher
  accepted' : ∀ lower higher, a'.priorities.hasEdge lower higher ↔ c.Orders lower higher
  parser : ∀ (σ : Type) (limit : Nat) (s : σ) (w : Window) (p : Position),
    a'.executor.parser limit s w p = a.executor.parser limit s w p

/-- **The order of categories and priorities does not matter.** Suppose that no category is declared
twice, and that the priorities between declared categories form no cycle.  Then however categories
and priorities are reordered, the only priorities that are refused are those that name an unknown
category, and the answer is the same: the same problem, or the same parser. -/
theorem assemble_reordered {c c' : Catalogue} (hcategories : c'.categories.Perm c.categories)
    (hpriorities : c'.priorities.Perm c.priorities)
    (hdeclarations : c'.declarations = c.declarations)
    (hdistinct : (c.categories.map (·.1)).Nodup)
    (hacyclic : ∀ name, ¬ TransGen c.Orders name name) (entry : Entry) (config : ExecutorConfig)
    (sink : Sink) :
    ∃ complaints warnings answer answer',
      complaints = c.declarations.filterMap (complaint (c.categories.map (·.1))) ∧
      (∀ d ∈ warnings, d.severity = .warning) ∧
      (c.assemble entry config sink).result = .ok (sink.adding
        (c.strangers.map (refusal (c.categories.map (·.1))) ++ complaints ++ warnings), answer) ∧
      (c'.assemble entry config sink).result = .ok (sink.adding
        (c'.strangers.map (refusal (c'.categories.map (·.1))) ++ complaints ++ warnings),
          answer') ∧
      (∀ problem, answer = .error problem ↔ answer' = .error problem) ∧
      ∀ a, answer = .ok a → ∃ a', answer' = .ok a' ∧ c.SameParser a a' := by
  have hnames : ∀ name, name ∈ c'.categories.map (·.1) ↔ name ∈ c.categories.map (·.1) :=
    fun name => (hcategories.map _).mem_iff
  have hdistinct' : (c'.categories.map (·.1)).Nodup := (hcategories.map _).nodup_iff.2 hdistinct
  have horders : c'.Orders = c.Orders := by
    funext lower higher
    simp only [Orders, hpriorities.mem_iff, Priority.within_iff, hnames]
  have hacyclic' : ∀ name, ¬ TransGen c'.Orders name name := horders ▸ hacyclic
  have hdraws := draws_of_acyclic hacyclic
  have hdraws' := draws_of_acyclic hacyclic'
  rw [horders] at hdraws'
  obtain ⟨hknown, -⟩ := knownOf_of_nodup hdistinct
  obtain ⟨hknown', -⟩ := knownOf_of_nodup hdistinct'
  obtain ⟨hfailed, hdone⟩ := c.assemble_result entry config sink
  obtain ⟨hfailed', hdone'⟩ := c'.assemble_result entry config sink
  rw [hknown] at hfailed hdone
  rw [hknown', startOf_congr hnames, usable_congr hnames hdeclarations] at hdone'
  rw [hknown', startOf_congr hnames] at hfailed'
  rw [omissions_of_acyclic hdistinct hacyclic] at hfailed hdone
  rw [omissions_of_acyclic hdistinct' hacyclic', complaint_congr hnames, hdeclarations]
    at hfailed' hdone'
  cases hstart : startOf (c.categories.map (·.1)) entry with
  | error problem =>
    refine ⟨_, [], .error problem, .error problem, rfl, fun _ h => absurd h List.not_mem_nil,
      ?_, ?_, fun _ => .rfl, fun a ha => nomatch ha⟩
    · rw [List.append_nil]
      exact hfailed problem hstart
    · rw [List.append_nil]
      exact hfailed' problem hstart
  | ok start =>
    have husable : ∀ d ∈ c.usable (c.categories.map (·.1)),
        d.2.objection (c.categories.map (·.1)) = none :=
      fun d hd => ((mem_usable fun _ => .rfl).1 hd).2
    obtain ⟨g, conflicts, terminals, hlower, hblame, hbind⟩ := exists_parts hstart husable
      (drawn (c.categories.map (·.1)) (c.joined (c.categories.map (·.1))))
    have hlower' := hlower
    rw [← grammarOf_congr fun a b => (hdraws'.mem_successors.trans hdraws.mem_successors.symm)]
      at hlower'
    have hconstruct := construct_result c.categories hlower hblame hbind config
    have hconstruct' := construct_result c'.categories hlower' hblame hbind config
    rw [warning_congr hcategories hdistinct] at hconstruct'
    have hassembled := hdone _ _ _ hstart (hconstruct _)
    have hassembled' := hdone' _ _ _ hstart (hconstruct' _)
    rw [Sink.adding_adding] at hassembled hassembled'
    refine ⟨_, _, _, _, rfl, fun d hd => ?_, hassembled, hassembled',
      fun problem => ⟨fun h => (nomatch h), fun h => nomatch h⟩, ?_⟩
    · obtain ⟨b, -, rfl⟩ := List.mem_map.1 hd
      rfl
    · rintro _ ⟨⟩
      exact ⟨_, rfl, rfl, rfl, fun x y => hdraws.2 x y, fun x y => hdraws'.2 x y,
        fun _ _ _ _ _ => rfl⟩

/-- Disjunctions below conjunctions below negations, and these below a category that nobody
declared. -/
def logic : Catalogue where
  categories := [("or", none), ("negation", none), ("and", none)]
  priorities :=
    [⟨"or", "and", none⟩, ⟨"and", "negation", none⟩, ⟨"negation", "quantification", none⟩]
  declarations :=
    [⟨"or", "either", [.free (some "or"), .text "|", .free (some "or")], none⟩]

/-- Categories and priorities backwards. -/
def reversed (c : Catalogue) : Catalogue :=
  { c with categories := c.categories.reverse, priorities := c.priorities.reverse }

/-- Read backwards it makes the same parser. -/
theorem logic_reversed :
    (logic.categories.map (·.1)).Nodup ∧ (∀ name, ¬ TransGen logic.Orders name name) ∧
    ∃ warnings a a',
      (logic.assemble .any {} {}).result =
        .ok (Sink.adding {} (.error none "unknown category quantification" :: warnings), .ok a) ∧
      (logic.reversed.assemble .any {} {}).result =
        .ok (Sink.adding {} (.error none "unknown category quantification" :: warnings), .ok a') ∧
      logic.SameParser a a' := by
  have hdistinct : (logic.categories.map (·.1)).Nodup := by decide
  -- Every priority leads to a longer name, so there is no cycle.
  have hlonger : ∀ {x y}, TransGen logic.Orders x y → x.length < y.length := by
    have hstep : ∀ {x y}, logic.Orders x y → x.length < y.length := by
      rintro x y ⟨p, hp, -, rfl, rfl⟩
      simp only [logic, List.mem_cons, List.not_mem_nil, or_false] at hp
      rcases hp with rfl | rfl | rfl <;> decide
    intro x y h
    induction h with
    | single h => exact hstep h
    | tail _ h ih => exact ih.trans (hstep h)
  have hacyclic : ∀ name, ¬ TransGen logic.Orders name name :=
    fun _ h => Nat.lt_irrefl _ (hlonger h)
  obtain ⟨sink', a, hassembled⟩ :=
    @exists_assembled logic .any (fun _ h => nomatch h) {} {}
  obtain ⟨complaints, warnings, answer, answer', rfl, -, h, h', -, hsame⟩ :=
    @assemble_reordered logic logic.reversed
      (List.reverse_perm _) (List.reverse_perm _) rfl hdistinct hacyclic .any {} {}
  cases hassembled.symm.trans h
  obtain ⟨a', rfl, hparser⟩ := hsame a rfl
  exact ⟨hdistinct, hacyclic, warnings, a, a', h, h', hparser⟩

end Catalogue

end Mixfix
