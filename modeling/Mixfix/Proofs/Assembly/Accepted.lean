import Mixfix.Proofs.Assembly.Totality
import Mixfix.Proofs.LevelGraph.Successors

/-!
# What is accepted of a catalogue

The entries of a catalogue are accepted one after the other.  A priority is accepted if both of its
categories are declared and it closes no cycle with the priorities accepted before it; a declaration
if nothing speaks against it.  An assembled parser is made of the accepted entries, and of all of
them.

* `Catalogue.accepted`: the accepted priorities.
* `Catalogue.Above`: a category is above another by a path of them.
* `Catalogue.Usable`: the declarations that nothing speaks against.
* `Catalogue.Draws.acceptPriority`: what one priority does to the graph.
* `Catalogue.accepted_of_assemble`: an assembled parser is made of what is accepted.
-/

namespace Mixfix

open Relation

/-! ### Priorities -/

/-- A priority fits with others: its categories are known, and the higher one does not lead to the
lower one yet. -/
def Priority.Joins (names : List String) (edges : Set (String × String)) (p : Priority) : Prop :=
  p.lower ∈ names ∧ p.higher ∈ names ∧ p.lower ≠ p.higher ∧
    ¬ ReflTransGen (fun x y => (x, y) ∈ edges) p.higher p.lower

namespace Catalogue

/-- The pairs of categories after some priorities, each accepted if it fits with those before. -/
def acceptedFrom (names : List String) (edges : Set (String × String)) :
    List Priority → Set (String × String)
  | [] => edges
  | p :: ps =>
    acceptedFrom names {e | e ∈ edges ∨ p.Joins names edges ∧ e = (p.lower, p.higher)} ps

/-- The accepted priorities, from the lower category to the higher. -/
def accepted (c : Catalogue) : Set (String × String) :=
  acceptedFrom (c.categories.map (·.1)) ∅ c.priorities

/-- The second category is above the first: a path of accepted priorities leads there. -/
def Above (c : Catalogue) : String → String → Prop :=
  TransGen fun lower higher => (lower, higher) ∈ c.accepted

/-- The graph is one of insertions, with these edges. -/
def Draws (graph : LevelGraph String) (edges : Set (String × String)) : Prop :=
  graph.Valid ∧ ∀ x y, graph.hasEdge x y ↔ (x, y) ∈ edges

namespace Draws

variable {graph : LevelGraph String} {edges : Set (String × String)}

theorem hasEdge_eq (h : Draws graph edges) :
    (fun x y => graph.hasEdge x y = true) = fun x y => (x, y) ∈ edges := by
  funext x y
  exact propext (h.2 x y)

theorem leads_iff (h : Draws graph edges) {a b : String} :
    graph.Leads a b ↔ ReflTransGen (fun x y => (x, y) ∈ edges) a b := by
  rw [LevelGraph.Leads, h.hasEdge_eq]

theorem mem_successors (h : Draws graph edges) {a b : String} :
    b ∈ graph.successors a ↔ TransGen (fun x y => (x, y) ∈ edges) a b := by
  rw [h.1.mem_successors, h.hasEdge_eq]

theorem ne_of_transGen (h : Draws graph edges) {a b : String}
    (hab : TransGen (fun x y => (x, y) ∈ edges) a b) : a ≠ b :=
  h.1.ne_of_transGen (h.1.mem_successors.1 (h.mem_successors.2 hab))

theorem addVertex (h : Draws graph edges) (name : String) :
    Draws (graph.addVertex name).2 edges := by
  obtain ⟨labels, hgraph, -, hvalid, -⟩ := h.1.addVertex name
  rw [hgraph]
  exact ⟨hvalid, fun x y => (LevelGraph.hasEdge_withFresh h.1.leveled).trans (h.2 x y)⟩

/-- The vertices that are there from the beginning have no edges. -/
theorem vertices (names : List String) (h : Draws graph edges) :
    Draws (names.foldl (fun graph name => (graph.addVertex name).2) graph) edges := by
  induction names generalizing graph with
  | nil => exact h
  | cons name names ih => exact ih (h.addVertex name)

theorem congr (h : Draws graph edges) {edges' : Set (String × String)}
    (hedges : ∀ e, e ∈ edges' ↔ e ∈ edges) : Draws graph edges' :=
  ⟨h.1, fun x y => (h.2 x y).trans (hedges (x, y)).symm⟩

/-- One step: a priority is drawn exactly if it fits. -/
theorem acceptPriority (h : Draws graph edges) {known : List String} {sink sink' : Sink}
    {p : Priority} {graph' : LevelGraph String} {ε : Type}
    (hstep : (Catalogue.acceptPriority known sink graph p : Traced ε _).result =
      .ok (sink', graph')) :
    Draws graph' {e | e ∈ edges ∨ p.Joins known edges ∧ e = (p.lower, p.higher)} := by
  have hrefused : ¬ p.Joins known edges →
      ∀ e, e ∈ {e | e ∈ edges ∨ p.Joins known edges ∧ e = (p.lower, p.higher)} ↔ e ∈ edges :=
    fun hnot e => ⟨fun he => he.resolve_right fun ⟨hjoins, _⟩ => hnot hjoins, .inl⟩
  unfold Catalogue.acceptPriority at hstep
  split at hstep
  · next name hname =>
    obtain ⟨sink₁, -, hstep⟩ := Traced.bind_eq_ok.1 hstep
    cases hstep
    refine h.congr (hrefused fun hjoins => ?_)
    have hunknown := List.find?_some hname
    rcases List.mem_cons.1 (List.mem_of_find?_eq_some hname) with rfl | hmem
    · simp [hjoins.1] at hunknown
    · cases List.mem_singleton.1 hmem
      simp [hjoins.2.1] at hunknown
  · next hknown =>
    have hknown' : p.lower ∈ known ∧ p.higher ∈ known := by
      have := List.find?_eq_none.1 hknown
      simpa using this
    obtain ⟨⟨answer, graph₁⟩, hoffer, hstep⟩ := Traced.bind_eq_ok.1 hstep
    have hinsert := h.1.addEdgeWithin LevelGraph.budget p.lower p.higher
    rw [LevelGraph.offerEdge_result] at hoffer
    rw [show graph.addEdgeWithin LevelGraph.budget p.lower p.higher = (answer, graph₁) from
      Except.ok.inj hoffer] at hinsert
    have hjoins : answer = true ↔ p.Joins known edges := by
      rw [hinsert.accepted_iff, h.leads_iff, Priority.Joins]
      exact ⟨fun hfits => ⟨hknown'.1, hknown'.2, hfits⟩, fun hjoins => hjoins.2.2⟩
    dsimp only at hstep
    split at hstep
    · next haccepted =>
      cases hstep
      refine ⟨hinsert.valid, fun x y => ?_⟩
      rw [hinsert.accepted haccepted, h.2, Set.mem_ofPred_eq, Prod.mk.injEq]
      exact or_congr_right ⟨fun heq => ⟨hjoins.1 haccepted, heq⟩, fun heq => heq.2⟩
    · next haccepted =>
      obtain ⟨sink₁, -, hstep⟩ := Traced.bind_eq_ok.1 hstep
      cases hstep
      obtain ⟨labels, -, hgraph⟩ := hinsert.refused (by simpa using haccepted)
      refine Draws.congr ⟨hinsert.valid, fun x y => ?_⟩ (hrefused fun hp => haccepted (hjoins.2 hp))
      rw [show graph' = graph.withFresh labels from hgraph,
        LevelGraph.hasEdge_withFresh h.1.leveled]
      exact h.2 x y

/-- The run: after all priorities the accepted ones are drawn. -/
theorem acceptAll {known : List String} {ps : List Priority} {ε : Type}
    {state state' : Sink × LevelGraph String} (h : Draws state.2 edges)
    (hfold : (ps.foldlM (fun (sink, graph) p => Catalogue.acceptPriority known sink graph p) state :
      Traced ε _).result = .ok state') : Draws state'.2 (acceptedFrom known edges ps) := by
  induction ps generalizing state edges with
  | nil =>
    cases hfold
    exact h
  | cons p ps ih =>
    rw [List.foldlM_cons] at hfold
    obtain ⟨⟨sink₁, graph₁⟩, hstep, hfold⟩ := Traced.bind_eq_ok.1 hfold
    exact ih (h.acceptPriority hstep) hfold

end Draws

theorem acceptedFrom_congr {names names' : List String}
    (h : ∀ name, name ∈ names ↔ name ∈ names') (edges : Set (String × String))
    (ps : List Priority) : acceptedFrom names edges ps = acceptedFrom names' edges ps := by
  induction ps generalizing edges with
  | nil => rfl
  | cons p ps ih =>
    have hjoins : p.Joins names edges ↔ p.Joins names' edges := by
      rw [Priority.Joins, Priority.Joins, h, h]
    rw [acceptedFrom, acceptedFrom, ih]
    simp only [hjoins]

/-! ### Declarations -/

/-- The number is that of a declaration that nothing speaks against. -/
def Usable (c : Catalogue) (i : Nat) (decl : Declaration) : Prop :=
  c.declarations[i]? = some decl ∧ decl.objection (c.categories.map (·.1)) = none

theorem Usable.unique {c : Catalogue} {i : Nat} {decl decl' : Declaration} (h : c.Usable i decl)
    (h' : c.Usable i decl') : decl = decl' :=
  Option.some.inj (h.1.symm.trans h'.1)

/-- What speaks against fragments depends on which categories are known only. -/
theorem fragmentObjection_congr {names names' : List String}
    (h : ∀ name, name ∈ names ↔ name ∈ names') (tag : String) (fragments : List Fragment)
    (binders : List String) : Declaration.fragmentObjection tag names binders fragments =
      Declaration.fragmentObjection tag names' binders fragments := by
  have hcontains : ∀ name, names.contains name = names'.contains name := by
    intro name
    rw [Bool.eq_iff_iff, List.contains_iff_mem, List.contains_iff_mem, h]
  induction fragments generalizing binders with
  | nil => rfl
  | cons f fragments ih =>
    cases f with
    | text text => exact ih binders
    | space optional => exact ih binders
    | bound name =>
      rw [Declaration.fragmentObjection, Declaration.fragmentObjection, ih]
    | free above =>
      cases above with
      | none => exact ih binders
      | some name =>
        rw [Declaration.fragmentObjection, Declaration.fragmentObjection, ih, hcontains]

theorem objection_congr {names names' : List String} (h : ∀ name, name ∈ names ↔ name ∈ names')
    (decl : Declaration) : decl.objection names = decl.objection names' := by
  have hcategory : names.contains decl.category = names'.contains decl.category := by
    rw [Bool.eq_iff_iff, List.contains_iff_mem, List.contains_iff_mem, h]
  rw [Declaration.objection, Declaration.objection, fragmentObjection_congr h, hcategory]

theorem mem_usable {c : Catalogue} {names : List String}
    (h : ∀ name, name ∈ names ↔ name ∈ c.categories.map (·.1)) {d : Nat × Declaration} :
    d ∈ c.usable names ↔ c.Usable d.1 d.2 := by
  rw [usable, usableOf, List.mem_map, Usable, ← objection_congr h]
  simp only [List.mem_filter, Option.isNone_iff_eq_none]
  constructor
  · rintro ⟨⟨decl, i⟩, ⟨hmem, hnone⟩, rfl⟩
    exact ⟨List.mem_zipIdx_iff_getElem?.1 hmem, hnone⟩
  · rintro ⟨hget, hnone⟩
    exact ⟨(d.2, d.1), ⟨List.mem_zipIdx_iff_getElem?.2 hget, hnone⟩, rfl⟩

/-! ### The parser -/

/-- **The accepted entries.** The graph of an assembled parser draws the accepted priorities, and
its declarations are the usable ones. -/
theorem accepted_of_assemble {c : Catalogue} {entry : Entry} {config : ExecutorConfig}
    {sink sink' : Sink} {a : Assembled}
    (h : (c.assemble entry config sink).result = .ok (sink', .ok a)) :
    a.config = config ∧ Draws a.priorities c.accepted ∧ ∃ known ds start,
      c.Assembles entry a known ds start ∧ ∀ d, d ∈ ds ↔ c.Usable d.1 d.2 := by
  obtain ⟨sink₁, known, sink₂, sink₃, ds, start, hknown, hpriorities, hds, hconfig, hparts⟩ :=
    accepts_of_assemble h
  obtain ⟨_, known', hknown', hnames⟩ := c.exists_acceptCategories (ε := Fault) sink
  cases hknown.symm.trans hknown'
  obtain ⟨_, hds'⟩ := c.exists_acceptDeclarations (ε := Fault) (known.map (·.1)) sink₂
  cases hds.symm.trans hds'
  refine ⟨hconfig, ?_, _, _, start, hparts, fun d => mem_usable hnames⟩
  have hempty : Draws {} ∅ :=
    ⟨LevelGraph.valid_empty, by simp [LevelGraph.hasEdge, LevelGraph.indexOf?]⟩
  rw [accepted, ← acceptedFrom_congr hnames]
  exact Draws.acceptAll (hempty.vertices (known.map (·.1))) hpriorities

end Catalogue

end Mixfix
