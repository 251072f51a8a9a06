import Mathlib.Data.Finset.Card
import Mixfix.Proofs.LevelGraph.Insertion

/-!
# How high levels can be

A vertex goes one level up for a reason only: its level is that of something that leads to it, or
the search on the level below has met an edge and spent its budget.  So below every vertex that is
not on the first level there is an edge on the level just below it that leads to it.  A raise may
take such an edge away from a vertex, by lifting its target; then the edge that the raise itself
stands on leads to that vertex, through the new edge of the graph.

* `LevelGraph.Supports`, `LevelGraph.Tiered`: an edge just below a level, and one below every level.
* `LevelGraph.Drafted.tiered_link`: a raise with its new edge keeps this.
* `LevelGraph.Tiered.after`: so do all calls.
* `LevelGraph.Tiered.two_mul_levelAt_le`: a level needs two vertices on each level below it.
* `LevelGraph.levels_after`: the levels of every graph that calls build.
-/

namespace Mixfix.LevelGraph

open Relation

variable {α : Type} {d d' : LevelGraph α}

/-- An edge between two vertices just below `level` leads to `i`. -/
def Supports (d : LevelGraph α) (i level : Nat) : Prop :=
  ∃ x y, d.Edge x y ∧ d.levelAt x + 1 = level ∧ d.levelAt y + 1 = level ∧ d.Reaches y i

/-- Levels begin with 1, and a vertex above that has an edge just below it that leads to it. -/
structure Tiered (d : LevelGraph α) : Prop where
  pos : ∀ i < d.vertices.length, 1 ≤ d.levelAt i
  supported : ∀ i, 1 < d.levelAt i → d.Supports i (d.levelAt i)

theorem lt_length_of_levelAt {i : Nat} (h : 0 < d.levelAt i) : i < d.vertices.length := by
  by_contra hn
  rw [levelAt, List.getElem?_eq_none (Nat.le_of_not_lt hn)] at h
  exact absurd h (lt_irrefl 0)

/-- More edges, and the same levels, leave it so. -/
theorem Tiered.of_levelAt_eq (ht : d.Tiered) (hlength : d'.vertices.length = d.vertices.length)
    (hlevel : ∀ i, d'.levelAt i = d.levelAt i) (hedge : ∀ i j, d.Edge i j → d'.Edge i j) :
    d'.Tiered where
  pos := by
    intro i hi
    rw [hlevel]
    exact ht.pos i (hlength ▸ hi)
  supported := by
    intro i hi
    rw [hlevel] at hi ⊢
    obtain ⟨x, y, he, hx, hy, hyi⟩ := ht.supported i hi
    refine ⟨x, y, hedge x y he, ?_, ?_, ReflTransGen.mono hedge y i hyi⟩
    · rw [hlevel, hx]
    · rw [hlevel, hy]

theorem length_link {u v : Nat} : (d.link u v).vertices.length = d.vertices.length := by
  simpa using congrArg List.length (labels_link (d := d) (u := u) (v := v))

theorem Tiered.link (ht : d.Tiered) {u v : Nat} (hu : u < d.vertices.length) :
    (d.link u v).Tiered :=
  ht.of_levelAt_eq length_link levelAt_link fun _ _ he => (edge_link hu).2 (.inl he)

/-! ### New vertices -/

/-- A new vertex is on the first level. -/
theorem levelAt_withFresh_of_le {labels : List α} {i : Nat} (hi : d.vertices.length ≤ i)
    (hlt : i < (d.withFresh labels).vertices.length) : (d.withFresh labels).levelAt i = 1 := by
  rw [levelAt, List.getElem?_eq_getElem hlt]
  simp [LevelGraph.withFresh, List.getElem_append_right hi]

theorem Tiered.withFresh (ht : d.Tiered) (labels : List α) : (d.withFresh labels).Tiered where
  pos := by
    intro i hi
    by_cases hold : i < d.vertices.length
    · rw [levelAt_withFresh hold]
      exact ht.pos i hold
    · rw [levelAt_withFresh_of_le (Nat.le_of_not_lt hold) hi]
  supported := by
    intro i hi
    have hlt := lt_length_of_levelAt (Nat.zero_lt_of_lt hi)
    have hold : i < d.vertices.length := by
      by_contra hn
      rw [levelAt_withFresh_of_le (Nat.le_of_not_lt hn) hlt] at hi
      exact absurd hi (lt_irrefl 1)
    rw [levelAt_withFresh hold] at hi ⊢
    obtain ⟨x, y, he, hx, hy, hyi⟩ := ht.supported i hi
    refine ⟨x, y, ?_, ?_, ?_, ?_⟩
    · rwa [edge_withFresh]
    · rw [levelAt_withFresh (lt_length_of_levelAt (by omega)), hx]
    · rw [levelAt_withFresh (lt_length_of_levelAt (by omega)), hy]
    · rwa [Reaches, edge_withFresh]

/-! ### Raises -/

section

variable {u v : Nat} {t : Draft}

theorem levelAt_apply_link {i : Nat} (hi : i < d.vertices.length) :
    ((d.apply t).link u v).levelAt i = t.levelAt d i := by
  rw [levelAt_link, levelAt_apply hi]

theorem edge_apply_link (hu : u < d.vertices.length) {i j : Nat} :
    ((d.apply t).link u v).Edge i j ↔ d.Edge i j ∨ i = u ∧ j = v := by
  have hsame := sameEdges_apply d t
  rw [edge_link (by rwa [hsame.length_eq]), hsame.edge]

theorem Reaches.apply_link (hu : u < d.vertices.length) {i j : Nat} (h : d.Reaches i j) :
    ((d.apply t).link u v).Reaches i j :=
  ReflTransGen.mono (fun _ _ he => (edge_apply_link hu).2 (.inl he)) i j h

namespace Drafted

variable {backward raised : List Nat} {level : Nat} (hl : d.Leveled) (hu : u < d.vertices.length)
  (h : Drafted d backward v level (fun x y => x ∈ raised ∧ d.Edge x y) t raised)

include hl hu h

/-- An old edge that stands outside of the raise is still just below its level. -/
theorem supports_of_not_mem {x y i k : Nat} (he : d.Edge x y) (hx : x ∉ raised) (hy : y ∉ raised)
    (hxk : d.levelAt x + 1 = k) (hyk : d.levelAt y + 1 = k)
    (hyi : ((d.apply t).link u v).Reaches y i) : ((d.apply t).link u v).Supports i k := by
  refine ⟨x, y, (edge_apply_link hu).2 (.inl he), ?_, ?_, hyi⟩
  · rw [levelAt_apply_link he.source_lt, h.levelAt_other hx, hxk]
  · rw [levelAt_apply_link (hl.lt_length he), h.levelAt_other hy, hyk]

/-- An edge that leads to `u` just below the new level leads through `v` to all that lies after
`v`. -/
theorem supports_after (hvu : ¬ d.Reaches v u) (hs : d.Supports u level) {i : Nat}
    (hvi : d.Reaches v i) : ((d.apply t).link u v).Supports i level := by
  obtain ⟨x, y, he, hx, hy, hyu⟩ := hs
  have hout : ∀ {z}, d.Reaches z u → z ∉ raised := fun hzu hz => hvu ((h.reaches hz).trans hzu)
  have huv : ((d.apply t).link u v).Edge u v := (edge_apply_link hu).2 (.inr ⟨rfl, rfl⟩)
  have hyi : ((d.apply t).link u v).Reaches y i :=
    (hyu.apply_link hu).trans (.head huv (hvi.apply_link hu))
  exact h.supports_of_not_mem hl hu he (hout (.head he hyu)) (hout hyu) hx hy hyi

/-- **A raise** of `v`, followed by the new edge from `u`, keeps an edge just below every vertex, if
there is one that leads to `u` just below the new level. -/
theorem tiered_link (ht : d.Tiered) (hvu : ¬ d.Reaches v u) (hs : d.Supports u level) :
    ((d.apply t).link u v).Tiered := by
  have hsame := sameEdges_apply d t
  constructor
  · intro i hi
    rw [length_link, hsame.length_eq] at hi
    rw [levelAt_apply_link hi]
    by_cases hir : i ∈ raised
    · rw [h.levelAt_raised hir]
      exact Nat.one_le_of_lt (h.low hir)
    · rw [h.levelAt_other hir]
      exact ht.pos i hi
  · intro i hi
    have hlt := lt_length_of_levelAt (Nat.zero_lt_of_lt hi)
    rw [length_link, hsame.length_eq] at hlt
    rw [levelAt_apply_link hlt] at hi ⊢
    by_cases hir : i ∈ raised
    · rw [h.levelAt_raised hir]
      exact h.supports_after hl hu hvu hs (h.reaches hir)
    rw [h.levelAt_other hir] at hi ⊢
    obtain ⟨x, y, he, hx, hy, hyi⟩ := ht.supported i hi
    by_cases hyr : y ∈ raised
    · -- The old edge has lost its target to the raise, which has come just up to `i`.
      have hmono : t.levelAt d y ≤ t.levelAt d i := by
        rw [← levelAt_apply (hl.lt_length he), ← levelAt_apply hlt]
        refine (h.leveled hl).reaches_level_le ?_
        rwa [Reaches, hsame.edge]
      rw [h.levelAt_raised hyr, h.levelAt_other hir] at hmono
      have hlow := h.low hyr
      obtain rfl : level = d.levelAt i := by omega
      exact h.supports_after hl hu hvu hs ((h.reaches hyr).trans hyi)
    · have hxr : x ∉ raised := by
        intro hxr
        have hpassed := (h.passed ⟨hxr, he⟩).2.2
        have hlow := h.low hxr
        rw [h.levelAt_other hyr] at hpassed
        omega
      exact h.supports_of_not_mem hl hu he hxr hyr hx hy (hyi.apply_link hu)

end Drafted

end

/-- A backward search that spends its budget has met an edge on the level of its source. -/
theorem exists_of_searchBackward_spent (hl : d.Leveled) {u v bound budget : Nat}
    {visited pending : List Nat} (hn : visited.Nodup)
    (hpending : ∀ x ∈ pending, d.Reaches x u ∧ d.levelAt x = d.levelAt u)
    (h : d.searchBackward v bound visited pending budget = .spent) :
    d.Supports u (d.levelAt u + 1) := by
  induction bound generalizing visited pending budget with
  | zero => cases h
  | succ bound ih =>
    cases pending with
    | nil => cases h
    | cons x pending =>
      obtain ⟨⟨hxu, hx⟩, hpending⟩ := List.forall_mem_cons.1 hpending
      have hincoming : ∀ {w}, w ∈ d.incomingAt x → d.Edge w x ∧ d.levelAt w = d.levelAt u :=
        fun hw => (hl.mem_incoming.1 hw).imp_right (·.trans hx)
      rw [searchBackward] at h
      split at h
      · next stop hstop =>
        subst h
        cases hws : d.incomingAt x with
        | nil =>
          rw [hws] at hstop
          cases hstop
        | cons w ws =>
          obtain ⟨he, hw⟩ := hincoming (w := w) (by simp [hws])
          exact ⟨w, x, he, by rw [hw], by rw [hx], hxu⟩
      · next visited' found budget' hgo =>
        obtain ⟨more, rfl, rfl, hnodup, hmore, -, -⟩ := backwardOver_inr hgo hn
        refine ih hnodup (fun y hy => ?_) h
        rw [List.append_nil, List.mem_append, List.mem_reverse] at hy
        rcases hy with hy | hy
        · obtain ⟨he, hlevel⟩ := hincoming (hmore y hy)
          exact ⟨.head he hxu, hlevel⟩
        · exact hpending y hy

section

variable (hl : d.Leveled) (ht : d.Tiered) {u v : Nat} (hu : u < d.vertices.length)
  (hv : v < d.vertices.length) (huv : u ≠ v)

include hl ht hu hv huv

theorem Tiered.raise_link {level : Nat} {backward : List Nat} (hbars : d.Bars u level backward)
    (hlow : d.levelAt v < level) (hs : d.Supports u level)
    (h : d.raise v level backward = some d') : (d'.link u v).Tiered := by
  obtain ⟨t, hsearch, rfl⟩ := Option.map_eq_some_iff.1 h
  have hsound := searchForward_spec hl backward hv hlow
  rw [hsearch] at hsound
  obtain ⟨raised, hvr, hdrafted⟩ := hsound
  have hvu := hdrafted.not_reaches hvr huv hbars.mem hbars.out
  exact hdrafted.tiered_link hl hu ht hvu hs

/-- Preparing an edge and linking it. -/
theorem Tiered.prepare_link (hle : d.levelAt v ≤ d.levelAt u) {budget : Nat}
    (h : d.prepare budget u v = some d') : (d'.link u v).Tiered := by
  have hsearch := searchBackward_spec hl hu huv budget
  rw [prepare] at h
  cases hres : d.searchBackward v (d.vertices.length + 1) [u] [u] budget with
  | cycle =>
    simp only [hres] at h
    cases h
  | spent =>
    simp only [hres] at h
    have hstart : ∀ x ∈ [u], d.Reaches x u ∧ d.levelAt x = d.levelAt u := by
      simp [Reaches, ReflTransGen.refl]
    have hs := exists_of_searchBackward_spent hl (List.nodup_singleton u) hstart hres
    exact raise_link hl ht hu hv huv (hl.bars u) (Nat.lt_succ_of_le hle) hs h
  | visited backward =>
    simp only [hres] at h hsearch
    split at h
    · next hlow =>
      -- The raise brings `v` to the level of `u`, and `u` has an edge below it already.
      have hpos := ht.pos v hv
      exact raise_link hl ht hu hv huv (hl.bars_of_visited hsearch) hlow
        (ht.supported u (by omega)) h
    · cases h
      exact ht.link hu

theorem Tiered.connect (budget : Nat) : (d.connect budget u v).2.Tiered := by
  rw [LevelGraph.connect, if_neg huv]
  split_ifs with _ hlt
  · exact ht
  · exact ht.link hu
  · cases hres : d.prepare budget u v with
    | none => exact ht
    | some d' => exact prepare_link hl ht hu hv huv (Nat.le_of_not_lt hlt) hres

end

/-! ### Histories -/

theorem tiered_empty : ({} : LevelGraph α).Tiered :=
  ⟨fun _ h => (nomatch h), fun _ h => absurd h (Nat.not_lt_zero 1)⟩

variable [DecidableEq α]

theorem Tiered.addEdgeWithin (ht : d.Tiered) (hd : d.Valid) (budget : LevelGraph α → Nat)
    (a b : α) : (d.addEdgeWithin budget a b).2.Tiered := by
  obtain ⟨xs, hd₁, -, h₁, ha⟩ := hd.addVertex a
  obtain ⟨ys, hd₂, -, h₂, hb⟩ := h₁.addVertex b
  have ht₂ := (ht.withFresh xs).withFresh ys
  rw [addEdgeWithin_eq hd₁ hd₂]
  by_cases huv : (d.addVertex a).1 = ((d.withFresh xs).addVertex b).1
  · rwa [LevelGraph.connect, if_pos huv]
  · exact ht₂.connect h₂.leveled (lt_length_of_indexOf? (indexOf?_withFresh ha))
      (lt_length_of_indexOf? hb) huv _

/-- Every call keeps an edge below each level. -/
theorem Tiered.after (ht : d.Tiered) (hd : d.Valid) (calls : List (Call α)) :
    (LevelGraph.after d calls).Tiered := by
  induction calls generalizing d with
  | nil => exact ht
  | cons call calls ih =>
    cases call with
    | vertex a =>
      obtain ⟨labels, heq, -, hvalid, -⟩ := hd.addVertex a
      rw [LevelGraph.after, heq]
      exact ih (ht.withFresh labels) hvalid
    | edge budget a b =>
      rw [LevelGraph.after]
      exact ih (ht.addEdgeWithin hd budget a b) (hd.addEdgeWithin budget a b).valid

/-! ### Counting -/

omit [DecidableEq α]

/-- Every level below one in use has an edge between two of its vertices. -/
theorem Tiered.exists_edge (ht : d.Tiered) {i k : Nat} (hk : 1 ≤ k) (hki : k < d.levelAt i) :
    ∃ x y, d.Edge x y ∧ d.levelAt x = k ∧ d.levelAt y = k := by
  obtain ⟨x, y, he, hx, hy, -⟩ := ht.supported i (by omega)
  by_cases hky : k = d.levelAt y
  · exact ⟨x, y, he, by omega, hky.symm⟩
  · exact ht.exists_edge hk (show k < d.levelAt y by omega)
termination_by d.levelAt i
decreasing_by omega

theorem Tiered.exists_ne (ht : d.Tiered) (hl : d.Leveled) (ha : d.Acyclic) {i k : Nat} (hk : 1 ≤ k)
    (hki : k < d.levelAt i) : ∃ x < d.vertices.length, ∃ y < d.vertices.length,
      x ≠ y ∧ d.levelAt x = k ∧ d.levelAt y = k := by
  obtain ⟨x, y, he, hx, hy⟩ := ht.exists_edge hk hki
  refine ⟨x, he.source_lt, y, hl.lt_length he, ?_, hx, hy⟩
  rintro rfl
  exact ha x x he .refl

/-- The vertices up to a level. -/
def upTo (d : LevelGraph α) (k : Nat) : Finset Nat :=
  (Finset.range d.vertices.length).filter (d.levelAt · ≤ k)

theorem mem_upTo {k i : Nat} : i ∈ d.upTo k ↔ i < d.vertices.length ∧ d.levelAt i ≤ k := by
  rw [upTo, Finset.mem_filter, Finset.mem_range]

theorem Tiered.two_mul_le_card_upTo (ht : d.Tiered) (hl : d.Leveled) (ha : d.Acyclic) {i k : Nat}
    (hki : k < d.levelAt i) : 2 * k ≤ (d.upTo k).card := by
  induction k with
  | zero => exact Nat.zero_le _
  | succ k ih =>
    have hk := ih (by omega)
    obtain ⟨x, hx, y, hy, hne, hxk, hyk⟩ := ht.exists_ne hl ha (Nat.le_add_left 1 k) hki
    have hsub : insert x (insert y (d.upTo k)) ⊆ d.upTo (k + 1) := by
      intro j hj
      rw [Finset.mem_insert, Finset.mem_insert] at hj
      rw [mem_upTo]
      rcases hj with rfl | rfl | hj
      · exact ⟨hx, hxk.le⟩
      · exact ⟨hy, hyk.le⟩
      · exact ⟨(mem_upTo.1 hj).1, Nat.le_succ_of_le (mem_upTo.1 hj).2⟩
    have hyn : y ∉ d.upTo k := fun hj => by have := (mem_upTo.1 hj).2; omega
    have hxn : x ∉ insert y (d.upTo k) := by
      rw [Finset.mem_insert, not_or]
      exact ⟨hne, fun hj => by have := (mem_upTo.1 hj).2; omega⟩
    have hcard := Finset.card_le_card hsub
    rw [Finset.card_insert_of_notMem hxn, Finset.card_insert_of_notMem hyn] at hcard
    omega

/-- Two vertices on each level below, and the vertex itself. -/
theorem Tiered.two_mul_levelAt_le (ht : d.Tiered) (hl : d.Leveled) (ha : d.Acyclic) {i : Nat}
    (hi : i < d.vertices.length) : 2 * d.levelAt i ≤ d.vertices.length + 1 := by
  have hpos := ht.pos i hi
  have hbelow := ht.two_mul_le_card_upTo hl ha (show d.levelAt i - 1 < d.levelAt i by omega)
  have hsub : insert i (d.upTo (d.levelAt i - 1)) ⊆ Finset.range d.vertices.length := by
    intro j hj
    rcases Finset.mem_insert.1 hj with rfl | hj
    · exact Finset.mem_range.2 hi
    · exact Finset.mem_range.2 (mem_upTo.1 hj).1
  have hnot : i ∉ d.upTo (d.levelAt i - 1) := fun hj => by have := (mem_upTo.1 hj).2; omega
  have hcard := Finset.card_le_card hsub
  rw [Finset.card_insert_of_notMem hnot, Finset.card_range] at hcard
  omega

/-- **The structure of levels.** After any calls, and whatever the budgets: no edge leads down; a
vertex knows exactly its predecessors on its level; and an edge on the level just below a vertex
leads to it, unless the vertex is on the first level.  So every level below one in use has two
vertices, and no level is above half of one more than the number of vertices. -/
theorem levels_after [DecidableEq α] (calls : List (Call α)) :
    let d := after {} calls
    (∀ x y, d.Edge x y → d.levelAt x ≤ d.levelAt y) ∧
      (∀ x y, x ∈ d.incomingAt y ↔ d.Edge x y ∧ d.levelAt x = d.levelAt y) ∧
      (∀ i, 1 < d.levelAt i → ∃ x y, d.Edge x y ∧ d.levelAt x = d.levelAt i - 1 ∧
        d.levelAt y = d.levelAt i - 1 ∧ d.Reaches y i) ∧
      (∀ i k, 1 ≤ k → k < d.levelAt i → ∃ x < d.vertices.length, ∃ y < d.vertices.length,
        x ≠ y ∧ d.levelAt x = k ∧ d.levelAt y = k) ∧
      ∀ i < d.vertices.length, 1 ≤ d.levelAt i ∧ d.levelAt i ≤ (d.vertices.length + 1) / 2 := by
  intro d
  have hd : d.Valid := (valid_empty.after calls).1
  have ht : d.Tiered := tiered_empty.after valid_empty calls
  refine ⟨fun _ _ => hd.leveled.level_le, fun _ _ => hd.leveled.mem_incoming, fun i hi => ?_,
    fun _ _ => ht.exists_ne hd.leveled hd.acyclic, fun i hi => ⟨ht.pos i hi, ?_⟩⟩
  · obtain ⟨x, y, he, hx, hy, hyi⟩ := ht.supported i hi
    exact ⟨x, y, he, by omega, by omega, hyi⟩
  · have := ht.two_mul_levelAt_le hd.leveled hd.acyclic hi
    omega

/-- A budget of one is spent on the first edge below `2`, so three vertices take two levels. -/
example : (after {} [.edge (fun _ => 1) 0 1, .edge (fun _ => 1) 1 2] :
    LevelGraph Nat).vertices.map (·.level) = [1, 1, 2] := by
  decide

end Mixfix.LevelGraph
