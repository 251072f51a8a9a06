import Mixfix.Proofs.LevelGraph.Search

/-!
# Changes of a level graph

A graph changes in three ways: levels rise to make room for an edge, an edge links two vertices, and
vertices without edges are added.  All three keep the promises of the levels.

* `LevelGraph.prepare_spec`: preparing an edge that does not go up refuses it exactly if it closes a
  cycle.
* `LevelGraph.Leveled.link`, `LevelGraph.Acyclic.link`: linking.
* `LevelGraph.Leveled.withFresh`: new vertices.
-/

namespace Mixfix.LevelGraph

open Relation

variable {α : Type} {d d' : LevelGraph α}

/-! ### Preparing -/

theorem map_mapIdx_eq {β γ : Type} {f : β → γ} {g : Nat → β → β} (h : ∀ i x, f (g i x) = f x)
    (l : List β) : (l.mapIdx g).map f = l.map f := by
  refine List.ext_getElem? fun i => ?_
  rw [List.getElem?_map, List.getElem?_map, List.getElem?_mapIdx, Option.map_map]
  cases l[i]? with
  | none => rfl
  | some x => exact congrArg some (h i x)

/-- The two graphs have the same vertices and edges, but for levels. -/
structure SameEdges (d d' : LevelGraph α) : Prop where
  edgeCount : d'.edgeCount = d.edgeCount
  labels : d'.vertices.map (·.label) = d.vertices.map (·.label)
  outgoingAt : ∀ i, d'.outgoingAt i = d.outgoingAt i

theorem SameEdges.refl (d : LevelGraph α) : SameEdges d d := ⟨rfl, rfl, fun _ => rfl⟩

theorem SameEdges.length_eq (h : SameEdges d d') : d'.vertices.length = d.vertices.length := by
  simpa using congrArg List.length h.labels

theorem SameEdges.edge (h : SameEdges d d') : d'.Edge = d.Edge := by
  funext i j
  rw [Edge, Edge, h.outgoingAt]

theorem sameEdges_apply (d : LevelGraph α) (t : Draft) : SameEdges d (d.apply t) where
  edgeCount := rfl
  labels := by
    rw [apply]
    refine map_mapIdx_eq (fun i x => ?_) d.vertices
    rfl
  outgoingAt := by
    intro i
    rw [outgoingAt, outgoingAt, apply, List.getElem?_mapIdx]
    cases d.vertices[i]? <;> rfl

theorem levelAt_apply {t : Draft} {i : Nat} (hi : i < d.vertices.length) :
    (d.apply t).levelAt i = t.levelAt d i := by
  rw [levelAt, apply, List.getElem?_mapIdx, List.getElem?_eq_getElem hi]
  rfl

theorem incomingAt_apply {t : Draft} {i : Nat} (hi : i < d.vertices.length) :
    (d.apply t).incomingAt i = t.incomingAt d i := by
  rw [incomingAt, apply, List.getElem?_mapIdx, List.getElem?_eq_getElem hi]
  rfl

theorem lt_length_of_mem_incomingAt {i j : Nat} (h : i ∈ d.incomingAt j) :
    j < d.vertices.length := by
  by_contra hn
  rw [incomingAt, List.getElem?_eq_none (Nat.le_of_not_lt hn)] at h
  cases h

namespace Drafted

variable {backward raised : List Nat} {v level : Nat} {t : Draft}

/-- Edges go up on the new levels. -/
theorem levelAt_le (hl : d.Leveled)
    (h : Drafted d backward v level (fun x y => x ∈ raised ∧ d.Edge x y) t raised) {i j : Nat}
    (he : d.Edge i j) : t.levelAt d i ≤ t.levelAt d j := by
  have hij := hl.level_le he
  by_cases hi : i ∈ raised
  · rw [h.levelAt_raised hi]
    exact (h.passed ⟨hi, he⟩).2.2
  · rw [h.levelAt_other hi]
    by_cases hj : j ∈ raised
    · have := h.low hj
      rw [h.levelAt_raised hj]
      omega
    · rw [h.levelAt_other hj]
      exact hij

/-- The predecessors on the new levels are those on the same level. -/
theorem mem_incomingAt (hl : d.Leveled)
    (h : Drafted d backward v level (fun x y => x ∈ raised ∧ d.Edge x y) t raised) {i j : Nat} :
    i ∈ t.incomingAt d j ↔ d.Edge i j ∧ t.levelAt d i = t.levelAt d j := by
  rw [h.mem_incoming]
  constructor
  · rintro (⟨hjr, hi⟩ | ⟨⟨hir, he⟩, hlevel⟩)
    · obtain ⟨he, hlevel⟩ := hl.mem_incoming.1 hi
      -- A raised vertex would have raised its successor on the old level too.
      have hir : i ∉ raised := by
        intro hir
        have hle := (h.passed ⟨hir, he⟩).2.2
        have := h.low hir
        rw [h.levelAt_other hjr] at hle
        omega
      rw [h.levelAt_other hir, h.levelAt_other hjr]
      exact ⟨he, hlevel⟩
    · rw [h.levelAt_raised hir, hlevel]
      exact ⟨he, rfl⟩
  · rintro ⟨he, hlevel⟩
    have hij := hl.level_le he
    by_cases hir : i ∈ raised
    · rw [h.levelAt_raised hir] at hlevel
      exact .inr ⟨⟨hir, he⟩, hlevel.symm⟩
    · have hjr : j ∉ raised := by
        intro hjr
        have := h.low hjr
        rw [h.levelAt_other hir, h.levelAt_raised hjr] at hlevel
        omega
      rw [h.levelAt_other hir, h.levelAt_other hjr] at hlevel
      exact .inl ⟨hjr, hl.mem_incoming.2 ⟨he, hlevel⟩⟩

/-- A draft that has gone over all edges of the vertices it raises keeps the promises of the
levels. -/
theorem leveled (hl : d.Leveled)
    (h : Drafted d backward v level (fun x y => x ∈ raised ∧ d.Edge x y) t raised) :
    (d.apply t).Leveled := by
  have hsame := sameEdges_apply d t
  refine
    { lt_length := ?_
      level_le := ?_
      mem_incoming := ?_ }
  · intro i j he
    rw [hsame.edge] at he
    rw [hsame.length_eq]
    exact hl.lt_length he
  · intro i j he
    rw [hsame.edge] at he
    rw [levelAt_apply he.source_lt, levelAt_apply (hl.lt_length he)]
    exact h.levelAt_le hl he
  · intro i j
    rw [hsame.edge]
    constructor
    · intro hi
      have hj := lt_length_of_mem_incomingAt hi
      rw [hsame.length_eq] at hj
      rw [incomingAt_apply hj, h.mem_incomingAt hl] at hi
      rw [levelAt_apply hi.1.source_lt, levelAt_apply hj]
      exact hi
    · rintro ⟨he, hlevel⟩
      have hj := hl.lt_length he
      rw [levelAt_apply he.source_lt, levelAt_apply hj] at hlevel
      rw [incomingAt_apply hj, h.mem_incomingAt hl]
      exact ⟨he, hlevel⟩

end Drafted

/-- The meaning of a prepared edge: it closes a cycle, or the levels allow it now. -/
def PrepareSound (d : LevelGraph α) (u v : Nat) : Option (LevelGraph α) → Prop
  | none => d.Reaches v u
  | some d' => ¬ d.Reaches v u ∧ d'.Leveled ∧ SameEdges d d' ∧ d'.levelAt u ≤ d'.levelAt v

/-- A level that decides on an edge from `u` by a backward set: the set has `u`, leads to `u`, and
leaves only vertices below the level to lead to `u`. -/
structure Bars (d : LevelGraph α) (u level : Nat) (backward : List Nat) : Prop where
  le : d.levelAt u ≤ level
  mem : u ∈ backward
  back : ∀ x ∈ backward, d.Reaches x u
  out : ∀ x, d.Reaches x u → x ∉ backward → d.levelAt x < level

/-- What reaches `u` is not above it, so the level above `u` is enough. -/
theorem Leveled.bars (hl : d.Leveled) (u : Nat) : d.Bars u (d.levelAt u + 1) [u] where
  le := Nat.le_succ _
  mem := List.mem_singleton_self u
  back := by simp [Reaches, ReflTransGen.refl]
  out := by
    intro x hx _
    have := hl.reaches_level_le hx
    omega

/-- What reaches `u` from outside of a full backward set is below `u`. -/
theorem Leveled.bars_of_visited (hl : d.Leveled) {u v : Nat} {backward : List Nat}
    (h : (Backward.visited backward).Sound d u v) : d.Bars u (d.levelAt u) backward := by
  obtain ⟨hmem, -, hreach, hall⟩ := h
  refine ⟨Nat.le_refl _, hmem, hreach, fun x hx hxb => ?_⟩
  have := hl.reaches_level_le hx
  have : d.levelAt x ≠ d.levelAt u := fun heq => hxb (hall x hx heq)
  omega

/-- A forward search from `v` to such a level finds out whether `v` reaches `u`. -/
theorem ForwardSound.prepareSound (hl : d.Leveled) {u v level : Nat} {backward : List Nat}
    (hu : u < d.vertices.length) (hv : v < d.vertices.length) (huv : u ≠ v)
    (hbars : d.Bars u level backward) {result : Option Draft}
    (h : ForwardSound d backward v level result) : PrepareSound d u v (result.map d.apply) := by
  cases result with
  | none =>
    obtain ⟨y, hy, hvy⟩ := h
    exact hvy.trans (hbars.back y hy)
  | some t =>
    obtain ⟨raised, hvr, hdrafted⟩ := h
    have hnot := hdrafted.not_reaches hvr huv hbars.mem hbars.out
    refine ⟨hnot, hdrafted.leveled hl, sameEdges_apply d t, ?_⟩
    rw [levelAt_apply hu, levelAt_apply hv, hdrafted.levelAt_raised hvr,
      hdrafted.levelAt_other fun hur => hnot (hdrafted.reaches hur)]
    exact hbars.le

/-- Where `v` is not below `u`, a full backward set without `v` rules out that `v` reaches `u`. -/
theorem Leveled.prepareSound_of_visited (hl : d.Leveled) {u v : Nat} {backward : List Nat}
    (h : (Backward.visited backward).Sound d u v) (hle : d.levelAt u ≤ d.levelAt v) :
    PrepareSound d u v (some d) := by
  refine ⟨fun hvu => ?_, hl, .refl d, hle⟩
  have := (hl.bars_of_visited h).out v hvu h.2.1
  omega

/-- **Preparing** an edge that does not go up refuses it exactly if it closes a cycle. -/
theorem prepare_spec (hl : d.Leveled) {u v : Nat} (hu : u < d.vertices.length)
    (hv : v < d.vertices.length) (huv : u ≠ v) (hle : d.levelAt v ≤ d.levelAt u) (budget : Nat) :
    PrepareSound d u v (d.prepare budget u v) := by
  have hsearch := searchBackward_spec hl hu huv budget
  rw [prepare]
  cases hres : d.searchBackward v (d.vertices.length + 1) [u] [u] budget with
  | cycle =>
    rw [hres] at hsearch
    exact hsearch
  | spent =>
    have hlow : d.levelAt v < d.levelAt u + 1 := Nat.lt_succ_of_le hle
    exact (searchForward_spec hl [u] hv hlow).prepareSound hl hu hv huv (hl.bars u)
  | visited backward =>
    rw [hres] at hsearch
    show PrepareSound d u v
      (if d.levelAt v < d.levelAt u then d.raise v (d.levelAt u) backward else some d)
    split
    · next hlow =>
      exact (searchForward_spec hl backward hv hlow).prepareSound hl hu hv huv
        (hl.bars_of_visited hsearch)
    · next hnlow => exact hl.prepareSound_of_visited hsearch (Nat.le_of_not_lt hnlow)

/-- Room is made by raising levels only. -/
theorem sameEdges_of_prepare {budget u v : Nat} (h : d.prepare budget u v = some d') :
    SameEdges d d' := by
  have hraise : ∀ {level backward}, d.raise v level backward = some d' → SameEdges d d' := by
    intro level backward hraise
    obtain ⟨t, -, rfl⟩ := Option.map_eq_some_iff.1 hraise
    exact sameEdges_apply d t
  unfold prepare at h
  dsimp only at h
  split at h
  · cases h
  · exact hraise h
  · split at h
    · exact hraise h
    · cases h
      exact .refl d

/-! ### Linking -/

section

variable {u v : Nat}

theorem levelAt_link (i : Nat) : (d.link u v).levelAt i = d.levelAt i := by
  rw [levelAt, levelAt, link, List.getElem?_mapIdx]
  cases d.vertices[i]? with
  | none => rfl
  | some x =>
    simp only [Option.map_some, Option.elim_some]
    split_ifs <;> rfl

theorem labels_link : (d.link u v).vertices.map (·.label) = d.vertices.map (·.label) := by
  rw [link]
  refine map_mapIdx_eq (fun i x => ?_) d.vertices
  dsimp only
  split_ifs <;> rfl

theorem edge_link (hu : u < d.vertices.length) {i j : Nat} :
    (d.link u v).Edge i j ↔ d.Edge i j ∨ i = u ∧ j = v := by
  rw [Edge, Edge, outgoingAt, outgoingAt, link, List.getElem?_mapIdx]
  by_cases hi : i = u
  · subst hi
    rw [List.getElem?_eq_getElem hu]
    simp only [Option.map_some, Option.elim_some]
    split_ifs <;> simp
  · cases d.vertices[i]? with
    | none => simp [hi]
    | some x =>
      simp only [Option.map_some, Option.elim_some, hi, if_false, false_and, or_false]
      split_ifs <;> rfl

theorem mem_incomingAt_link (hv : v < d.vertices.length) {i j : Nat} :
    i ∈ (d.link u v).incomingAt j ↔
      i ∈ d.incomingAt j ∨ i = u ∧ j = v ∧ d.levelAt u = d.levelAt v := by
  rw [incomingAt, incomingAt, link, List.getElem?_mapIdx]
  by_cases hj : j = v
  · subst hj
    rw [List.getElem?_eq_getElem hv]
    simp only [Option.map_some, Option.elim_some]
    have hincoming : (if j = u then { d.vertices[j] with
        outgoing := d.vertices[j].outgoing ++ [j] } else d.vertices[j]).incoming =
          d.vertices[j].incoming := by
      split <;> rfl
    rw [hincoming]
    by_cases hlevel : d.levelAt u = d.levelAt j
    · by_cases hknown : u ∈ d.vertices[j].incoming
      · rw [if_neg (by simp [hknown]), hincoming]
        simp only [hlevel, and_true]
        exact ⟨.inl, fun h => h.elim id fun h => h ▸ hknown⟩
      · rw [if_pos (by simp [hlevel, hknown])]
        simp [hlevel]
    · rw [if_neg (by simp [hlevel]), hincoming]
      simp [hlevel]
  · cases d.vertices[j]? with
    | none => simp [hj]
    | some x =>
      simp only [Option.map_some, Option.elim_some, hj]
      split_ifs <;> simp_all

theorem Leveled.link (hl : d.Leveled) (hu : u < d.vertices.length) (hv : v < d.vertices.length)
    (hle : d.levelAt u ≤ d.levelAt v) : (d.link u v).Leveled where
  lt_length := by
    intro i j he
    have hlen : (d.link u v).vertices.length = d.vertices.length := by
      simpa using congrArg List.length (labels_link (d := d) (u := u) (v := v))
    rw [hlen]
    rcases (edge_link hu).1 he with he | ⟨-, rfl⟩
    · exact hl.lt_length he
    · exact hv
  level_le := by
    intro i j he
    rw [levelAt_link, levelAt_link]
    rcases (edge_link hu).1 he with he | ⟨rfl, rfl⟩
    · exact hl.level_le he
    · exact hle
  mem_incoming := by
    intro i j
    rw [mem_incomingAt_link hv, edge_link hu, levelAt_link, levelAt_link, hl.mem_incoming,
      or_and_right]
    refine or_congr_right ?_
    constructor
    · rintro ⟨rfl, rfl, hlevel⟩
      exact ⟨⟨rfl, rfl⟩, hlevel⟩
    · rintro ⟨⟨rfl, rfl⟩, hlevel⟩
      exact ⟨rfl, rfl, hlevel⟩

/-- A path with the new edge is an old path, or leads over the new edge. -/
theorem reaches_link (hu : u < d.vertices.length) {i j : Nat} (h : (d.link u v).Reaches i j) :
    d.Reaches i j ∨ d.Reaches i u ∧ d.Reaches v j := by
  induction h with
  | refl => exact .inl .refl
  | tail _ he ih =>
    rcases (edge_link hu).1 he with he | ⟨rfl, rfl⟩
    · exact ih.imp (·.tail he) fun ⟨hiu, hvj⟩ => ⟨hiu, hvj.tail he⟩
    · rcases ih with hiu | ⟨hiu, -⟩
      · exact .inr ⟨hiu, .refl⟩
      · exact .inr ⟨hiu, .refl⟩

/-- No edge leads to a vertex that leads back. -/
def Acyclic (d : LevelGraph α) : Prop := ∀ i j, d.Edge i j → ¬ d.Reaches j i

theorem Acyclic.link (ha : d.Acyclic) (hu : u < d.vertices.length) (hvu : ¬ d.Reaches v u) :
    (d.link u v).Acyclic := by
  intro i j he hr
  rcases (edge_link hu).1 he with he | ⟨rfl, rfl⟩
  · rcases reaches_link hu hr with hji | ⟨hju, hvi⟩
    · exact ha i j he hji
    · exact hvu (hvi.trans (.head he hju))
  · rcases reaches_link hu hr with hji | ⟨hju, -⟩
    · exact hvu hji
    · exact hvu hju

end

/-! ### New vertices -/

/-- The graph with new vertices, which have no edges. -/
def withFresh (d : LevelGraph α) (labels : List α) : LevelGraph α :=
  { d with vertices := d.vertices ++ labels.map fun a => ⟨a, 1, [], []⟩ }

section

variable {labels : List α}

theorem withFresh_withFresh (d : LevelGraph α) (xs ys : List α) :
    (d.withFresh xs).withFresh ys = d.withFresh (xs ++ ys) := by
  simp [LevelGraph.withFresh]

theorem getElem?_withFresh {i : Nat} (hi : d.vertices.length ≤ i) {x : Vertex α}
    (hx : (d.withFresh labels).vertices[i]? = some x) : x.outgoing = [] ∧ x.incoming = [] := by
  rw [withFresh, List.getElem?_append_right hi, List.getElem?_map] at hx
  obtain ⟨a, -, rfl⟩ := Option.map_eq_some_iff.1 hx
  exact ⟨rfl, rfl⟩

theorem outgoingAt_withFresh (i : Nat) : (d.withFresh labels).outgoingAt i = d.outgoingAt i := by
  by_cases hi : i < d.vertices.length
  · rw [outgoingAt, withFresh, List.getElem?_append_left hi]
    rfl
  · have hle := Nat.le_of_not_lt hi
    rw [outgoingAt, outgoingAt, List.getElem?_eq_none hle]
    cases hx : (d.withFresh labels).vertices[i]? with
    | none => rfl
    | some x => exact (getElem?_withFresh hle hx).1

theorem incomingAt_withFresh (i : Nat) : (d.withFresh labels).incomingAt i = d.incomingAt i := by
  by_cases hi : i < d.vertices.length
  · rw [incomingAt, withFresh, List.getElem?_append_left hi]
    rfl
  · have hle := Nat.le_of_not_lt hi
    rw [incomingAt, incomingAt, List.getElem?_eq_none hle]
    cases hx : (d.withFresh labels).vertices[i]? with
    | none => rfl
    | some x => exact (getElem?_withFresh hle hx).2

theorem edge_withFresh : (d.withFresh labels).Edge = d.Edge := by
  funext i j
  rw [Edge, Edge, outgoingAt_withFresh]

theorem levelAt_withFresh {i : Nat} (hi : i < d.vertices.length) :
    (d.withFresh labels).levelAt i = d.levelAt i := by
  rw [levelAt, withFresh, List.getElem?_append_left hi]
  rfl

theorem Leveled.withFresh (hl : d.Leveled) (labels : List α) : (d.withFresh labels).Leveled where
  lt_length := by
    intro i j he
    rw [edge_withFresh] at he
    have := hl.lt_length he
    rw [LevelGraph.withFresh, List.length_append]
    omega
  level_le := by
    intro i j he
    rw [edge_withFresh] at he
    rw [levelAt_withFresh he.source_lt, levelAt_withFresh (hl.lt_length he)]
    exact hl.level_le he
  mem_incoming := by
    intro i j
    rw [incomingAt_withFresh, edge_withFresh, hl.mem_incoming]
    refine and_congr_right fun he => ?_
    rw [levelAt_withFresh he.source_lt, levelAt_withFresh (hl.lt_length he)]

end

end Mixfix.LevelGraph
