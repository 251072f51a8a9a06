import Mixfix.Proofs.Assembly.Accepted

/-!
# Which entries are left out

A catalogue is screened in three passes.  Each pass goes through its entries in order: an entry that
fits with those kept before it is kept, any other is left out and reported, and nothing else happens
to it.  What is assembled depends on the kept entries only, and what is reported are the entries
left out, in order, and then the warnings.

* `Screen.kept`, `Screen.left`: the two outcomes of a pass.
* `Screen.kept_kept`: a pass keeps all of what a pass has kept.
* `Screen.foldlM_result`: what a pass computes.
* `Catalogue.assemble_result`: what an assembly answers and reports.
-/

namespace Mixfix

open Relation

/-! ### Passes -/

/-- The sink after some more reports. -/
def Sink.adding (sink : Sink) (reports : List Diagnostic) : Sink :=
  { sink with entries := sink.entries ++ reports }

namespace Sink

@[simp] theorem adding_nil (sink : Sink) : sink.adding [] = sink := by simp [adding]

@[simp] theorem adding_adding (sink : Sink) (ds ds' : List Diagnostic) :
    (sink.adding ds).adding ds' = sink.adding (ds ++ ds') := by simp [adding]

theorem report_result (sink : Sink) (d : Diagnostic) {ε : Type} :
    (sink.report d : Traced ε Sink).result = .ok (sink.adding [d]) := by
  unfold report
  split <;> rfl

theorem foldlM_report_result {α ε : Type} (complain : α → Diagnostic) (l : List α) (sink : Sink) :
    (l.foldlM (fun sink a => sink.report (complain a)) sink : Traced ε Sink).result =
      .ok (sink.adding (l.map complain)) := by
  induction l generalizing sink with
  | nil => simp
  | cons a l ih =>
    rw [List.foldlM_cons, Traced.bind_of_ok (sink.report_result _), ih, adding_adding]
    rfl

end Sink

/-- A way of judging entries: whether an entry fits with those kept before it, as far as they are
remembered, and what is remembered of one that is kept. -/
structure Screen (α β : Type) where
  fits : β → α → Prop
  next : β → α → β

namespace Screen

variable {α β γ ε : Type} (s : Screen α β)

open Classical in
/-- The entries that fit, each with those kept before it. -/
noncomputable def kept (b : β) : List α → List α
  | [] => []
  | a :: l => if s.fits b a then a :: kept (s.next b a) l else kept b l

open Classical in
/-- The other entries. -/
noncomputable def left (b : β) : List α → List α
  | [] => []
  | a :: l => if s.fits b a then left (s.next b a) l else a :: left b l

variable {s}

theorem kept_cons_of_fits {b : β} {a : α} (h : s.fits b a) (l : List α) :
    s.kept b (a :: l) = a :: s.kept (s.next b a) l := if_pos h

theorem kept_cons_of_not_fits {b : β} {a : α} (h : ¬ s.fits b a) (l : List α) :
    s.kept b (a :: l) = s.kept b l := if_neg h

theorem left_cons_of_fits {b : β} {a : α} (h : s.fits b a) (l : List α) :
    s.left b (a :: l) = s.left (s.next b a) l := if_pos h

theorem left_cons_of_not_fits {b : β} {a : α} (h : ¬ s.fits b a) (l : List α) :
    s.left b (a :: l) = a :: s.left b l := if_neg h

/-- Every entry is kept or left out. -/
theorem kept_append_left_perm (b : β) (l : List α) : (s.kept b l ++ s.left b l).Perm l := by
  induction l generalizing b with
  | nil => exact .refl _
  | cons a l ih =>
    by_cases h : s.fits b a
    · rw [kept_cons_of_fits h, left_cons_of_fits h]
      exact (ih _).cons a
    · rw [kept_cons_of_not_fits h, left_cons_of_not_fits h]
      exact List.perm_middle.trans ((ih b).cons a)

/-- A second pass keeps everything, -/
theorem kept_kept (b : β) (l : List α) : s.kept b (s.kept b l) = s.kept b l := by
  induction l generalizing b with
  | nil => rfl
  | cons a l ih =>
    by_cases h : s.fits b a
    · rw [kept_cons_of_fits h, kept_cons_of_fits h, ih]
    · rw [kept_cons_of_not_fits h, ih]

/-- and leaves nothing out. -/
theorem left_kept (b : β) (l : List α) : s.left b (s.kept b l) = [] := by
  induction l generalizing b with
  | nil => rfl
  | cons a l ih =>
    by_cases h : s.fits b a
    · rw [kept_cons_of_fits h, left_cons_of_fits h, ih]
    · rw [kept_cons_of_not_fits h, ih]

/-- A pass, where a step that keeps an entry adds it to what is computed, and any other step reports
the entry only. -/
theorem foldlM_result (step : Sink × γ → α → Traced ε (Sink × γ)) (add : γ → α → γ)
    (complain : α → Diagnostic) (Holds : β → γ → Prop)
    (hkeep : ∀ {b c a} sink, Holds b c → s.fits b a →
      (step (sink, c) a).result = .ok (sink, add c a) ∧ Holds (s.next b a) (add c a))
    (hleave : ∀ {b c a} sink, Holds b c → ¬ s.fits b a →
      (step (sink, c) a).result = .ok (sink.adding [complain a], c))
    {b : β} {c : γ} (h : Holds b c) (l : List α) (sink : Sink) :
    (l.foldlM step (sink, c)).result =
      .ok (sink.adding ((s.left b l).map complain), (s.kept b l).foldl add c) := by
  induction l generalizing b c sink with
  | nil => simp [kept, left]
  | cons a l ih =>
    rw [List.foldlM_cons]
    by_cases hfits : s.fits b a
    · obtain ⟨hstep, hnext⟩ := hkeep sink h hfits
      rw [Traced.bind_of_ok hstep, ih hnext, kept_cons_of_fits hfits, left_cons_of_fits hfits,
        List.foldl_cons]
    · rw [Traced.bind_of_ok (hleave sink h hfits), ih h, kept_cons_of_not_fits hfits,
        left_cons_of_not_fits hfits, Sink.adding_adding]
      rfl

end Screen

namespace Catalogue

variable {ε : Type}

/-! ### Categories -/

/-- A category fits if none before it has its name. -/
def unrepeated : Screen (String × Option Span) (List (String × Option Span)) where
  fits known category := category.1 ∉ known.map (·.1)
  next known category := known ++ [category]

/-- The report about a category that is declared again. -/
def repetition (category : String × Option Span) : Diagnostic :=
  .error category.2 s!"category {category.1} is already declared"

/-- The categories without repetitions. -/
noncomputable def knownOf (c : Catalogue) : List (String × Option Span) :=
  unrepeated.kept [] c.categories

/-- The repetitions. -/
noncomputable def repetitions (c : Catalogue) : List (String × Option Span) :=
  unrepeated.left [] c.categories

theorem acceptCategories_result (c : Catalogue) (sink : Sink) :
    (c.acceptCategories sink : Traced ε _).result =
      .ok (sink.adding (c.repetitions.map repetition), c.knownOf) := by
  have hlookup : ∀ (known : List (String × Option Span)) (category : String × Option Span),
      (known.lookup category.1).isSome ↔ ¬ unrepeated.fits known category := by
    intro known category
    show _ ↔ ¬ category.1 ∉ known.map (·.1)
    rw [not_not, List.lookup_isSome_iff, List.mem_map]
    exact exists_congr fun other => and_congr_right fun _ => by rw [beq_iff_eq, eq_comm]
  refine (Screen.foldlM_result (s := unrepeated) _ (fun known category => known ++ [category])
    repetition Eq ?_ ?_ rfl c.categories sink).trans ?_
  · rintro _ known ⟨name, span⟩ sink rfl hfits
    refine ⟨?_, rfl⟩
    dsimp only
    rw [if_neg fun hsome => (hlookup _ _).1 hsome hfits]
    rfl
  · rintro _ known ⟨name, span⟩ sink rfl hfits
    dsimp only
    rw [if_pos ((hlookup _ (name, span)).2 hfits), Traced.bind_of_ok (sink.report_result _)]
    rfl
  · have hadd : ∀ known : List (String × Option Span),
        known.foldl (fun known category => known ++ [category]) [] = known := by
      simp [← List.flatMap_def]
    rw [hadd]
    rfl

/-! ### Priorities -/

/-- A priority fits if it joins the pairs before it. -/
def joining (names : List String) : Screen Priority (Set (String × String)) where
  fits edges p := p.Joins names edges
  next edges p := {e | e ∈ edges ∨ e = (p.lower, p.higher)}

/-- The report about a priority: the first of its categories that is not known, or else a cycle. -/
def refusal (names : List String) (p : Priority) : Diagnostic :=
  .error p.span <|
    match [p.lower, p.higher].find? fun name => !names.contains name with
    | some name => s!"unknown category {name}"
    | none => s!"priority {p.lower} < {p.higher} closes a cycle"

/-- The priorities that fit together. -/
noncomputable def joined (c : Catalogue) (names : List String) : List Priority :=
  (joining names).kept ∅ c.priorities

/-- The other priorities. -/
noncomputable def refused (c : Catalogue) (names : List String) : List Priority :=
  (joining names).left ∅ c.priorities

/-- The graph with these vertices, and the edges of these priorities. -/
def drawn (names : List String) (ps : List Priority) : LevelGraph String :=
  ps.foldl (fun graph p => (graph.addEdge p.lower p.higher).2)
    (names.foldl (fun graph name => (graph.addVertex name).2) {})

/-- The accepted pairs are those of the kept priorities. -/
theorem mem_acceptedFrom {names : List String} {edges : Set (String × String)} {ps : List Priority}
    {e : String × String} : e ∈ acceptedFrom names edges ps ↔
      e ∈ edges ∨ ∃ p ∈ (joining names).kept edges ps, e = (p.lower, p.higher) := by
  induction ps generalizing edges with
  | nil => simp [acceptedFrom, Screen.kept]
  | cons p ps ih =>
    rw [acceptedFrom, ih]
    by_cases hfits : (joining names).fits edges p
    · have hnext : {e | e ∈ edges ∨ p.Joins names edges ∧ e = (p.lower, p.higher)} =
          (joining names).next edges p :=
        Set.ext fun e => or_congr_right (and_iff_right hfits)
      rw [hnext, Screen.kept_cons_of_fits hfits, joining, Set.mem_ofPred_eq]
      simp only [List.exists_mem_cons_iff, or_assoc]
    · have hsame : {e | e ∈ edges ∨ p.Joins names edges ∧ e = (p.lower, p.higher)} = edges :=
        Set.ext fun e => or_iff_left fun h => hfits h.1
      rw [hsame, Screen.kept_cons_of_not_fits hfits]

/-- The graph draws these edges, and the names are vertices of it. -/
structure Holds (names : List String) (edges : Set (String × String)) (graph : LevelGraph String) :
    Prop where
  draws : Draws graph edges
  vertex : ∀ name ∈ names, (graph.indexOf? name).isSome

namespace Holds

variable {names : List String} {edges : Set (String × String)} {graph : LevelGraph String}

theorem mono (h : Holds names edges graph) {names' : List String} (hsub : names' ⊆ names) :
    Holds names' edges graph :=
  ⟨h.draws, fun name hname => h.vertex name (hsub hname)⟩

theorem addVertex (h : Holds names edges graph) (name : String) :
    Holds (name :: names) edges (graph.addVertex name).2 := by
  obtain ⟨labels, heq, -, -, hnew⟩ := h.draws.1.addVertex name
  refine ⟨h.draws.addVertex name, fun other hother => ?_⟩
  rw [heq]
  rcases List.mem_cons.1 hother with rfl | hother
  · rw [hnew]
    rfl
  · obtain ⟨i, hi⟩ := Option.isSome_iff_exists.1 (h.vertex other hother)
    rw [LevelGraph.indexOf?_withFresh hi]
    rfl

theorem addVertices (h : Holds names edges graph) (more : List String) :
    Holds (more ++ names) edges
      (more.foldl (fun graph name => (graph.addVertex name).2) graph) := by
  induction more generalizing graph names with
  | nil => exact h
  | cons name more ih =>
    refine (ih (h.addVertex name)).mono ?_
    rw [List.cons_append]
    exact List.perm_middle.symm.subset

/-- In the beginning there are the vertices only. -/
theorem vertices (names : List String) :
    Holds names ∅ (names.foldl (fun graph name => (graph.addVertex name).2) {}) := by
  have hempty : Holds [] ∅ {} :=
    ⟨⟨LevelGraph.valid_empty, by simp [LevelGraph.hasEdge, LevelGraph.indexOf?]⟩,
      fun _ h => absurd h List.not_mem_nil⟩
  simpa using hempty.addVertices names

/-- An edge between two vertices is added exactly if it joins; a refused one changes nothing. -/
theorem addEdge (h : Holds names edges graph) {p : Priority} (hlower : p.lower ∈ names)
    (hhigher : p.higher ∈ names) :
    ((graph.addEdge p.lower p.higher).1 = true ↔ p.Joins names edges) ∧
      (p.Joins names edges →
        Holds names ((joining names).next edges p) (graph.addEdge p.lower p.higher).2) ∧
      (¬ p.Joins names edges → (graph.addEdge p.lower p.higher).2 = graph) := by
  obtain ⟨u, hu⟩ := Option.isSome_iff_exists.1 (h.vertex _ hlower)
  obtain ⟨v, hv⟩ := Option.isSome_iff_exists.1 (h.vertex _ hhigher)
  obtain ⟨hvalid, hiff, haccepted, hrefused⟩ := h.draws.1.connect hu hv graph.budget
  rw [LevelGraph.addEdge, LevelGraph.addEdgeWithin_of_indexOf? hu hv]
  have hjoins : (graph.connect graph.budget u v).1 = true ↔ p.Joins names edges := by
    rw [hiff, h.draws.leads_iff, Priority.Joins]
    exact ⟨fun hfits => ⟨hlower, hhigher, hfits⟩, fun hjoins => hjoins.2.2⟩
  refine ⟨hjoins, fun hp => ⟨⟨hvalid, fun x y => ?_⟩, fun name hname => ?_⟩, fun hp => ?_⟩
  · rw [haccepted (hjoins.2 hp), h.draws.2, joining, Set.mem_ofPred_eq, Prod.mk.injEq]
  · rw [LevelGraph.indexOf?_congr LevelGraph.labels_connect]
    exact h.vertex name hname
  · exact hrefused (Bool.eq_false_iff.2 fun haccepted => hp (hjoins.1 haccepted))

/-- A priority that joins is added to the graph. -/
theorem accept (h : Holds names edges graph) {p : Priority} (hp : p.Joins names edges)
    (sink : Sink) :
    (acceptPriority names sink graph p : Traced ε _).result =
      .ok (sink, (graph.addEdge p.lower p.higher).2) := by
  have hfind : [p.lower, p.higher].find? (fun name => !names.contains name) = none := by
    simp [hp.1, hp.2.1]
  rw [acceptPriority, hfind, Traced.bind_of_ok (graph.offerEdge_result p.lower p.higher)]
  dsimp only
  rw [if_pos ((h.addEdge hp.1 hp.2.1).1.2 hp)]
  rfl

/-- Any other is reported. -/
theorem refuse (h : Holds names edges graph) {p : Priority} (hp : ¬ p.Joins names edges)
    (sink : Sink) :
    (acceptPriority names sink graph p : Traced ε _).result =
      .ok (sink.adding [refusal names p], graph) := by
  rw [acceptPriority, refusal]
  cases hfind : [p.lower, p.higher].find? fun name => !names.contains name with
  | some name =>
    dsimp only
    rw [Traced.bind_of_ok (sink.report_result _)]
    rfl
  | none =>
    have hknown : p.lower ∈ names ∧ p.higher ∈ names := by
      simpa using List.find?_eq_none.1 hfind
    obtain ⟨hiff, -, hsame⟩ := h.addEdge hknown.1 hknown.2
    rw [Traced.bind_of_ok (graph.offerEdge_result p.lower p.higher)]
    dsimp only
    rw [if_neg fun haccepted => hp (hiff.1 haccepted), hsame hp,
      Traced.bind_of_ok (sink.report_result _)]
    rfl

end Holds

theorem acceptPriorities_result (c : Catalogue) (names : List String) (sink : Sink) :
    (c.acceptPriorities names sink : Traced ε _).result =
      .ok (sink.adding ((c.refused names).map (refusal names)), drawn names (c.joined names)) :=
  Screen.foldlM_result (s := joining names)
    (fun s p => acceptPriority names s.1 s.2 p)
    (fun graph p => (graph.addEdge p.lower p.higher).2) (refusal names) (Holds names)
    (fun sink h hp => ⟨h.accept hp sink, (h.addEdge hp.1 hp.2.1).2.1 hp⟩)
    (fun sink h hp => h.refuse hp sink) (Holds.vertices names) c.priorities sink

/-- The graph of the kept priorities draws the accepted pairs. -/
theorem draws_drawn (c : Catalogue) (names : List String) :
    Draws (drawn names (c.joined names)) (acceptedFrom names ∅ c.priorities) :=
  Draws.acceptAll (ε := Fault) (Holds.vertices names).draws
    (c.acceptPriorities_result names {})

/-! ### Declarations -/

/-- The report about a declaration that cannot be used. -/
def complaint (names : List String) (d : Declaration) : Option Diagnostic :=
  (d.objection names).map (.error d.span)

/-- A usable declaration is kept with its number, any other is reported. -/
def acceptDeclaration (names : List String) (sink : Sink) (usable : List (Nat × Declaration))
    (d : Declaration) (i : Nat) {ε : Type} : Traced ε (Sink × List (Nat × Declaration)) := do
  match d.objection names with
  | some message => return (← sink.report (.error d.span message), usable)
  | none => return (sink, usable ++ [(i, d)])

theorem acceptDeclaration_result (names : List String) (sink : Sink)
    (before : List (Nat × Declaration)) (d : Declaration) (i : Nat) :
    (acceptDeclaration names sink before d i : Traced ε _).result =
      .ok (sink.adding (complaint names d).toList, before ++ usableOf names [(d, i)]) := by
  rw [acceptDeclaration]
  cases hobjection : d.objection names with
  | some message =>
    rw [Traced.bind_of_ok (sink.report_result _)]
    simp [usableOf, complaint, hobjection]
  | none => simp [usableOf, complaint, hobjection]

theorem acceptDeclarations_result (c : Catalogue) (names : List String) (sink : Sink) :
    (c.acceptDeclarations names sink : Traced ε _).result =
      .ok (sink.adding (c.declarations.filterMap (complaint names)), c.usable names) := by
  suffices hall : ∀ (ds : List (Declaration × Nat)) (sink : Sink)
      (before : List (Nat × Declaration)),
      (ds.foldlM (fun s d => acceptDeclaration names s.1 s.2 d.1 d.2) (sink, before) :
        Traced ε _).result =
      .ok (sink.adding ((ds.map (·.1)).filterMap (complaint names)),
        before ++ usableOf names ds) by
    have h := hall c.declarations.zipIdx sink []
    rw [List.zipIdx_map_fst, List.nil_append] at h
    exact h
  intro ds
  induction ds with
  | nil =>
    intro sink before
    simp [usableOf]
  | cons d ds ih =>
    intro sink before
    rw [List.foldlM_cons, Traced.bind_of_ok (acceptDeclaration_result names sink before d.1 d.2),
      ih]
    cases hobjection : d.1.objection names <;> simp [usableOf, complaint, hobjection]

/-! ### The answer -/

/-- The reports about what is left out: categories, then priorities, then declarations. -/
noncomputable def omissions (c : Catalogue) : List Diagnostic :=
  let names := c.knownOf.map (·.1)
  c.repetitions.map repetition ++ (c.refused names).map (refusal names) ++
    c.declarations.filterMap (complaint names)

/-- What a construction answers and reports: its sink gets the warnings. -/
theorem construct_result (known : List (String × Option Span)) {priorities : LevelGraph String}
    {ds : List (Nat × Declaration)} {entry : Entry} {start : String} {g : Grammar}
    {conflicts : List Blame} {terminals : List (Handle × Terminal)}
    (hlower : (grammarOf entry start priorities ds).lower.result = .ok g)
    (hblame : blame (originTable ds) (Table.ofGrammar g) = .ok conflicts)
    (hbind : (Table.ofGrammar g).bind Terminal.endOfInput (Terminal.named (literalsOf ds)) =
      .ok terminals) (config : ExecutorConfig) (sink : Sink) :
    (construct known priorities ds entry start config sink).result =
      .ok (sink.adding (conflicts.map (warning known ds)),
        ⟨Table.ofGrammar g, terminals, Terminal.allLiterals (literalsOf ds), config, priorities,
          conflicts⟩) := by
  refine (Traced.bind_of_ok hlower _).trans ?_
  refine (Traced.bind_of_ok (Table.build_result g Failure) _).trans ?_
  refine (Traced.bind_of_ok (a := conflicts) (by rw [hblame]; rfl) _).trans ?_
  refine (Traced.bind_of_ok (Sink.foldlM_report_result _ conflicts sink) _).trans ?_
  refine (Traced.bind_of_ok (Traced.emit_result _) _).trans ?_
  exact (Traced.bind_of_ok (a := terminals) hbind _).trans rfl

/-- What an assembly answers and reports: the entries left out, in order, and then the warnings. -/
theorem assemble_result (c : Catalogue) (entry : Entry) (config : ExecutorConfig) (sink : Sink) :
    (∀ problem, startOf (c.knownOf.map (·.1)) entry = .error problem →
      (c.assemble entry config sink).result = .ok (sink.adding c.omissions, .error problem)) ∧
    ∀ start sink' a, startOf (c.knownOf.map (·.1)) entry = .ok start →
      (construct c.knownOf (drawn (c.knownOf.map (·.1)) (c.joined (c.knownOf.map (·.1))))
        (c.usable (c.knownOf.map (·.1))) entry start config (sink.adding c.omissions)).result =
          .ok (sink', a) →
      (c.assemble entry config sink).result = .ok (sink', .ok a) := by
  have hds := c.acceptDeclarations_result (ε := Fault) (c.knownOf.map (·.1))
    ((sink.adding (c.repetitions.map repetition)).adding
      ((c.refused (c.knownOf.map (·.1))).map (refusal (c.knownOf.map (·.1)))))
  rw [Sink.adding_adding, Sink.adding_adding] at hds
  exact assemble_eq_ok entry config (c.acceptCategories_result sink)
    (c.acceptPriorities_result _ _) (by rw [Sink.adding_adding]; exact hds)

end Catalogue

end Mixfix
