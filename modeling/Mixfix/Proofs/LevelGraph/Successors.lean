import Mixfix.Proofs.LevelGraph.Insertion
import Mixfix.Proofs.Reach

/-!
# The successors in a level graph

The successors of a label are what paths of at least one edge lead to.  In a graph that insertions
build, a label is never among its own.

The search opens one vertex after another; in whatever order it takes them and goes through their
edges, it stops, and it finds the same.  So the two ways to ask whether a path leads from one label
to another agree: the search finds the target, or the edge back is refused.

* `LevelGraph.Valid.ne_of_transGen`: paths of at least one edge do not come back.
* `LevelGraph.Valid.mem_successors`: the successors are the ends of these paths.
* `LevelGraph.SearchEnds`: how the search ends.
* `LevelGraph.Valid.mem_successors_iff_refused`: the successors are what an edge back is refused
  from.
* `LevelGraph.successors_exact`: all of this after every history of calls.
-/

namespace Mixfix.LevelGraph

open Relation

variable {α : Type} [DecidableEq α] {d : LevelGraph α}

theorem mem_range_of_indexOf? {a : α} {i : Nat} (h : d.indexOf? a = some i) :
    i ∈ List.range d.vertices.length :=
  List.mem_range.2 (lt_length_of_indexOf? h)

namespace Valid

/-- A path of at least one edge does not come back. -/
theorem ne_of_transGen (h : d.Valid) {a b : α} (hab : TransGen (fun x y => d.hasEdge x y) a b) :
    a ≠ b := by
  rintro rfl
  obtain ⟨c, hac, hca⟩ := TransGen.head'_iff.1 hab
  obtain ⟨u, v, hu, hv, huv⟩ := hasEdge_iff.1 hac
  exact h.acyclic u v huv ((leads_iff h.labels hv hu).1 hca)

theorem transGen_iff (h : d.Valid) {a b : α} :
    TransGen (fun x y => d.hasEdge x y) a b ↔ d.Leads a b ∧ a ≠ b := by
  refine ⟨fun hab => ⟨hab.to_reflTransGen, h.ne_of_transGen hab⟩, fun ⟨hab, hne⟩ => ?_⟩
  exact (reflTransGen_iff_eq_or_transGen.1 hab).resolve_left fun heq => hne heq.symm

/-- A label is that of one vertex. -/
theorem label_iff (h : d.Valid) {a : α} {i : Nat} :
    (d.vertices[i]?).map (·.label) = some a ↔ d.indexOf? a = some i := by
  refine ⟨fun hi => ?_, label_of_indexOf?⟩
  obtain ⟨x, hx, -⟩ := Option.map_eq_some_iff.1 hi
  obtain ⟨b, hb⟩ := exists_indexOf? h.labels (List.getElem?_eq_some_iff.1 hx).1
  cases hi.symm.trans (label_of_indexOf? hb)
  exact hb

/-- Edges lead to vertices. -/
theorem outgoingAt_subset (h : d.Valid) :
    ∀ u ∈ List.range d.vertices.length, d.outgoingAt u ⊆ List.range d.vertices.length :=
  fun _ _ _ hv => List.mem_range.2 (h.leveled.lt_length hv)

/-- **The successors** of a label are what paths of at least one edge lead to. -/
theorem mem_successors (h : d.Valid) {a b : α} :
    b ∈ d.successors a ↔ TransGen (fun x y => d.hasEdge x y) a b := by
  rw [h.transGen_iff, successors]
  cases ha : d.indexOf? a with
  | none =>
    -- A label that is not in the graph has no edges.
    refine ⟨fun hb => (nomatch hb), fun ⟨hab, hne⟩ => ?_⟩
    obtain heq | ⟨c, hac, -⟩ := ReflTransGen.cases_head hab
    · exact absurd heq hne
    · obtain ⟨u, -, hu, -⟩ := hasEdge_iff.1 hac
      cases ha.symm.trans hu
  | some i =>
    have hreach : ∀ {j}, j ∈ reach d.outgoingAt d.vertices.length i ↔ d.Reaches i j :=
      mem_reach_iff h.outgoingAt_subset (Nat.le_of_eq List.length_range) (mem_range_of_indexOf? ha)
    simp only [List.mem_filterMap, List.mem_filter, hreach, h.label_iff, decide_eq_true_eq]
    constructor
    · rintro ⟨j, ⟨hij, hne⟩, hb⟩
      refine ⟨(leads_iff h.labels ha hb).2 hij, ?_⟩
      rintro rfl
      exact hne (Option.some.inj (hb.symm.trans ha))
    · rintro ⟨hab, hne⟩
      obtain heq | ⟨c, -, hcb⟩ := ReflTransGen.cases_tail hab
      · exact absurd heq.symm hne
      · obtain ⟨-, j, -, hb, -⟩ := hasEdge_iff.1 hcb
        refine ⟨j, ⟨(leads_iff h.labels ha hb).1 hab, ?_⟩, hb⟩
        rintro rfl
        exact hne (indexOf?_inj ha hb)

/-- No successor is there twice. -/
theorem nodup_successors (h : d.Valid) (a : α) : (d.successors a).Nodup := by
  rw [successors]
  cases ha : d.indexOf? a with
  | none => exact List.nodup_nil
  | some i =>
    have hreach : (reach d.outgoingAt d.vertices.length i).Nodup :=
      (Pursuit.one h.outgoingAt_subset (mem_range_of_indexOf? ha)).nodup_reachFrom
    refine (hreach.filter _).filterMap fun j k b hj hk => ?_
    exact Option.some.inj ((h.label_iff.1 hj).symm.trans (h.label_iff.1 hk))

end Valid

/-! ### The search -/

/-- How the search for the successors of a label ends, from its vertex. -/
structure SearchEnds (d : LevelGraph α) (a : α) (i : Nat) : Prop where
  /-- To open more vertices would change nothing. -/
  rest : ∀ more, reach d.outgoingAt (d.vertices.length + more) i =
    reach d.outgoingAt d.vertices.length i
  /-- A work list does not take turns forever, whichever vertex it opens next, and in whatever order
  it goes through the edges of each. -/
  stops : ∀ next, (∀ j, (next j).Perm (d.outgoingAt j)) →
    Acc (fun work' work => Turn next work work') ([i], [i])
  /-- What it has found when no vertex is pending are the vertices of the successors, and its
  start. -/
  finds : ∀ next, (∀ j, (next j).Perm (d.outgoingAt j)) → ∀ found,
    ReflTransGen (Turn next) ([i], [i]) (found, []) →
      ((found.filter (· ≠ i)).filterMap fun j => (d.vertices[j]?).map (·.label)).Perm
        (d.successors a)

namespace Valid

theorem searchEnds (h : d.Valid) {a : α} {i : Nat} (ha : d.indexOf? a = some i) :
    SearchEnds d a i where
  rest := reach_add h.outgoingAt_subset (Nat.le_of_eq List.length_range) (mem_range_of_indexOf? ha)
  stops := fun next hnext => Pursuit.acc (.one (fun u hu => List.Subset.trans (hnext u).subset
    (h.outgoingAt_subset u hu)) (mem_range_of_indexOf? ha))
  finds := fun next hnext found hturns => by
    rw [successors, ha]
    exact ((perm_reach hnext h.outgoingAt_subset (Nat.le_of_eq List.length_range)
      (mem_range_of_indexOf? ha) hturns).filter _).filterMap _

/-! ### Edges back -/

/-- The search and the insertion answer alike: the successors are the labels from which an edge back
is refused. -/
theorem mem_successors_iff_refused (h : d.Valid) {a b : α} (hne : b ≠ a)
    (budget : LevelGraph α → Nat) :
    b ∈ d.successors a ↔ (d.addEdgeWithin budget b a).1 = false := by
  have hinsert := h.addEdgeWithin budget b a
  rw [h.mem_successors, h.transGen_iff, ← Bool.not_eq_true, hinsert.accepted_iff]
  simp [hne, hne.symm]

/-- Edges stay, so successors stay. -/
theorem successors_after (h : d.Valid) (calls : List (Call α)) (a : α) :
    d.successors a ⊆ (d.after calls).successors a := by
  intro b hb
  obtain ⟨hafter, hedges⟩ := h.after calls
  exact hafter.mem_successors.2
    (TransGen.mono (fun x y hxy => (hedges x y).2 (.inl hxy)) _ _ (h.mem_successors.1 hb))

end Valid

/-- **The successors are the transitive closure.**  After any calls, and whatever the budgets, the
search for the successors of a label ends, and they are, once each, what paths of one or more
accepted edges lead to.  The label is not among them; another label is one of them exactly if an
edge from it back to this one is refused, and then it is refused after all further calls, too.  A
label that is not in the graph has none. -/
theorem successors_exact (calls : List (Call α)) (a : α) :
    let d := after {} calls
    let edges := accepted {} calls
    (∀ i, d.indexOf? a = some i → SearchEnds d a i) ∧
      (d.successors a).Nodup ∧
      (∀ b, b ∈ d.successors a ↔ TransGen (fun x y => (x, y) ∈ edges) a b) ∧
      a ∉ d.successors a ∧
      (∀ b, b ≠ a → ∀ budget,
        b ∈ d.successors a ↔ (d.addEdgeWithin budget b a).1 = false) ∧
      (∀ b ∈ d.successors a, ∀ more budget,
        ((d.after more).addEdgeWithin budget b a).1 = false) ∧
      (d.contains a = false → d.successors a = []) := by
  intro d edges
  obtain ⟨hvalid, hedges⟩ := valid_empty.after calls
  have hedge : (fun x y => d.hasEdge x y = true) = fun x y => (x, y) ∈ edges := by
    funext x y
    rw [hedges]
    simp [hasEdge, indexOf?, edges]
  have hself : ∀ b ∈ d.successors a, b ≠ a := fun b hb =>
    (hvalid.ne_of_transGen (hvalid.mem_successors.1 hb)).symm
  refine ⟨fun i hi => hvalid.searchEnds hi, hvalid.nodup_successors a, fun b => ?_,
    fun ha => hself a ha rfl, fun b hne budget => hvalid.mem_successors_iff_refused hne budget,
    fun b hb more budget => ?_, fun ha => ?_⟩
  · rw [hvalid.mem_successors, hedge]
  · exact ((hvalid.after more).1.mem_successors_iff_refused (hself b hb) budget).1
      (hvalid.successors_after more a hb)
  · have hnone : d.indexOf? a = none := by simpa [contains] using ha
    rw [successors, hnone]

end Mixfix.LevelGraph
