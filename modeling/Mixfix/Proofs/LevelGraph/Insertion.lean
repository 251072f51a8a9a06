import Mathlib.Data.Set.Card
import Mixfix.Proofs.LevelGraph.Levels

/-!
# Inserting edges into a level graph

Every graph that insertions build is acyclic, with levels that keep their promises, so an edge is
refused exactly if its target already leads to its source.

* `LevelGraph.leads_iff`: paths between labels are paths between their vertices.
* `LevelGraph.Valid`: the invariant of all graphs that are built by insertions.
* `LevelGraph.Valid.addEdgeWithin`: what an insertion does.
* `LevelGraph.addEdge_exact`: the same after every history of calls.
-/

namespace Mixfix.LevelGraph

open Relation

variable {α : Type} [DecidableEq α] {d d' : LevelGraph α}

/-! ### Labels -/

theorem indexOf?_congr (h : d'.vertices.map (·.label) = d.vertices.map (·.label)) (a : α) :
    d'.indexOf? a = d.indexOf? a := by
  have hmap : ∀ d : LevelGraph α,
      d.indexOf? a = (d.vertices.map (·.label)).findIdx? (decide <| · = a) := by
    intro d
    rw [indexOf?, List.findIdx?_map]
    rfl
  rw [hmap, hmap, h]

theorem lt_length_of_indexOf? {a : α} {i : Nat} (h : d.indexOf? a = some i) :
    i < d.vertices.length :=
  (List.findIdx?_eq_some_iff_getElem.1 h).1

theorem label_of_indexOf? {a : α} {i : Nat} (h : d.indexOf? a = some i) :
    (d.vertices[i]?).map (·.label) = some a := by
  obtain ⟨hi, ha, -⟩ := List.findIdx?_eq_some_iff_getElem.1 h
  rw [List.getElem?_eq_getElem hi]
  simpa using ha

theorem indexOf?_inj {a b : α} {i : Nat} (ha : d.indexOf? a = some i) (hb : d.indexOf? b = some i) :
    a = b :=
  Option.some.inj ((label_of_indexOf? ha).symm.trans (label_of_indexOf? hb))

/-- Where labels are different, every vertex is found by its label. -/
theorem exists_indexOf? (hn : (d.vertices.map (·.label)).Nodup) {i : Nat}
    (hi : i < d.vertices.length) : ∃ a, d.indexOf? a = some i := by
  refine ⟨d.vertices[i].label, List.findIdx?_eq_some_iff_getElem.2 ⟨hi, by simp, ?_⟩⟩
  intro j hj
  have hi' : i < (d.vertices.map (·.label)).length := by simpa using hi
  have hj' : j < (d.vertices.map (·.label)).length := hj.trans hi'
  have hij : (d.vertices.map (·.label))[j] ≠ (d.vertices.map (·.label))[i] := by
    rw [Ne, hn.getElem_inj_iff]
    exact Nat.ne_of_lt hj
  simpa using hij

theorem hasEdge_iff {a b : α} : d.hasEdge a b ↔
    ∃ u v, d.indexOf? a = some u ∧ d.indexOf? b = some v ∧ d.Edge u v := by
  unfold hasEdge
  cases d.indexOf? a with
  | none => simp
  | some u =>
    cases d.indexOf? b with
    | none => simp
    | some v => simp [Edge]

/-- A label leads to another along edges. -/
def Leads (d : LevelGraph α) : α → α → Prop := ReflTransGen fun x y => d.hasEdge x y

/-- Paths between labels are paths between their vertices. -/
theorem leads_iff (hn : (d.vertices.map (·.label)).Nodup) {a b : α} {u v : Nat}
    (ha : d.indexOf? a = some u) (hb : d.indexOf? b = some v) : d.Leads a b ↔ d.Reaches u v := by
  constructor
  · intro h
    suffices ∃ v', d.indexOf? b = some v' ∧ d.Reaches u v' by
      obtain ⟨v', hb', hr⟩ := this
      cases hb.symm.trans hb'
      exact hr
    clear hb
    induction h with
    | refl => exact ⟨u, ha, .refl⟩
    | tail _ he ih =>
      obtain ⟨i, hi, hr⟩ := ih
      obtain ⟨i', j, hi', hj, hij⟩ := hasEdge_iff.1 he
      cases hi.symm.trans hi'
      exact ⟨j, hj, hr.tail hij⟩
  · intro h
    induction h generalizing b with
    | refl => rw [indexOf?_inj hb ha]; exact .refl
    | tail _ he ih =>
      obtain ⟨c, hc⟩ := exists_indexOf? hn he.source_lt
      exact (ih hc).tail (hasEdge_iff.2 ⟨_, _, hc, hb, he⟩)

/-- The invariant: levels keep their promises, labels are different, there is no cycle, and the
edges are counted. -/
structure Valid (d : LevelGraph α) : Prop where
  leveled : d.Leveled
  labels : (d.vertices.map (·.label)).Nodup
  acyclic : d.Acyclic
  edgeCount : (d.edgeCount : ℕ∞) = {p : α × α | d.hasEdge p.1 p.2}.encard

theorem valid_empty : ({} : LevelGraph α).Valid where
  leveled :=
    ⟨fun h => (nomatch h), fun h => (nomatch h), ⟨fun h => (nomatch h), fun h => (nomatch h.1)⟩⟩
  labels := List.nodup_nil
  acyclic := fun _ _ h => (nomatch h)
  edgeCount := by
    have : {p : α × α | ({} : LevelGraph α).hasEdge p.1 p.2} = ∅ := by
      ext p
      simp [hasEdge, indexOf?]
    rw [this, Set.encard_empty]
    rfl

section

variable {labels : List α}

theorem indexOf?_withFresh {a : α} {i : Nat} (h : d.indexOf? a = some i) :
    (d.withFresh labels).indexOf? a = some i := by
  rw [indexOf?, withFresh, List.findIdx?_append, ← indexOf?, h]
  rfl

theorem indexOf?_of_withFresh {a : α} {i : Nat} (h : (d.withFresh labels).indexOf? a = some i)
    (hi : i < d.vertices.length) : d.indexOf? a = some i := by
  cases hd : d.indexOf? a with
  | some j => exact (indexOf?_withFresh hd).symm.trans h
  | none =>
    rw [indexOf?, withFresh, List.findIdx?_append, ← indexOf?, hd, Option.none_or] at h
    obtain ⟨j, -, rfl⟩ := Option.map_eq_some_iff.1 h
    omega

theorem hasEdge_withFresh (hl : d.Leveled) {a b : α} :
    (d.withFresh labels).hasEdge a b ↔ d.hasEdge a b := by
  rw [hasEdge_iff, hasEdge_iff, edge_withFresh]
  constructor
  · rintro ⟨u, v, hu, hv, he⟩
    exact ⟨u, v, indexOf?_of_withFresh hu he.source_lt,
      indexOf?_of_withFresh hv (hl.lt_length he), he⟩
  · rintro ⟨u, v, hu, hv, he⟩
    exact ⟨u, v, indexOf?_withFresh hu, indexOf?_withFresh hv, he⟩

/-- New vertices keep the invariant. -/
theorem Valid.withFresh (h : d.Valid) {a : α} (ha : d.indexOf? a = none) :
    (d.withFresh [a]).Valid where
  leveled := h.leveled.withFresh [a]
  labels := by
    have hnot : a ∉ d.vertices.map (·.label) := by
      intro hmem
      obtain ⟨x, hx, rfl⟩ := List.mem_map.1 hmem
      have := List.findIdx?_eq_none_iff.1 ha x hx
      simp at this
    have hlabels : (d.withFresh [a]).vertices.map (·.label) = d.vertices.map (·.label) ++ [a] := by
      simp [LevelGraph.withFresh]
    rw [hlabels]
    refine List.nodup_append.2 ⟨h.labels, by simp, ?_⟩
    intro x hx y hy hxy
    rw [List.mem_singleton] at hy
    exact hnot (hy ▸ hxy ▸ hx)
  acyclic := by
    intro i j he
    rw [Reaches, edge_withFresh] at *
    exact h.acyclic i j he
  edgeCount := by
    rw [Set.ext fun p : α × α => hasEdge_withFresh (a := p.1) (b := p.2) h.leveled]
    exact h.edgeCount

/-- Adding a vertex finds it, or adds it without edges. -/
theorem Valid.addVertex (h : d.Valid) (a : α) :
    ∃ labels, (d.addVertex a).2 = d.withFresh labels ∧
      (∀ x ∈ labels, x = a ∧ d.contains x = false) ∧ (d.withFresh labels).Valid ∧
      (d.withFresh labels).indexOf? a = some (d.addVertex a).1 := by
  unfold LevelGraph.addVertex
  cases ha : d.indexOf? a with
  | some i =>
    have hsame : d.withFresh [] = d := by
      simp [LevelGraph.withFresh]
    refine ⟨[], hsame.symm, by simp, ?_, ?_⟩
    · rw [hsame]
      exact h
    · rw [hsame]
      exact ha
  | none =>
    refine ⟨[a], rfl, by simp [contains, ha], h.withFresh ha, ?_⟩
    rw [indexOf?, LevelGraph.withFresh, List.findIdx?_append, ← indexOf?, ha]
    simp

/-- Linking keeps the invariant, and adds the edge. -/
theorem Valid.link (h : d.Valid) {a b : α} {u v : Nat} (ha : d.indexOf? a = some u)
    (hb : d.indexOf? b = some v) (he : ¬ d.Edge u v) (hvu : ¬ d.Reaches v u)
    (hle : d.levelAt u ≤ d.levelAt v) :
    (d.link u v).Valid ∧ ∀ x y, (d.link u v).hasEdge x y ↔ d.hasEdge x y ∨ x = a ∧ y = b := by
  have hu := lt_length_of_indexOf? ha
  have hv := lt_length_of_indexOf? hb
  have hedge : ∀ x y, (d.link u v).hasEdge x y ↔ d.hasEdge x y ∨ x = a ∧ y = b := by
    intro x y
    rw [hasEdge_iff, hasEdge_iff]
    simp only [indexOf?_congr labels_link, edge_link hu]
    constructor
    · rintro ⟨i, j, hx, hy, hij | ⟨rfl, rfl⟩⟩
      · exact .inl ⟨i, j, hx, hy, hij⟩
      · exact .inr ⟨indexOf?_inj hx ha, indexOf?_inj hy hb⟩
    · rintro (⟨i, j, hx, hy, hij⟩ | ⟨rfl, rfl⟩)
      · exact ⟨i, j, hx, hy, .inl hij⟩
      · exact ⟨u, v, ha, hb, .inr ⟨rfl, rfl⟩⟩
  refine ⟨⟨h.leveled.link hu hv hle, ?_, h.acyclic.link hu hvu, ?_⟩, hedge⟩
  · rw [labels_link]
    exact h.labels
  · have hset : {p : α × α | (d.link u v).hasEdge p.1 p.2} =
        insert (a, b) {p : α × α | d.hasEdge p.1 p.2} := by
      ext ⟨x, y⟩
      simp [hedge, or_comm]
    have hnot : (a, b) ∉ {p : α × α | d.hasEdge p.1 p.2} := by
      intro hab
      obtain ⟨u', v', ha', hb', he'⟩ := hasEdge_iff.1 hab
      cases ha.symm.trans ha'
      cases hb.symm.trans hb'
      exact he he'
    rw [hset, Set.encard_insert_of_notMem hnot, ← h.edgeCount]
    simp [LevelGraph.link]

theorem SameEdges.hasEdge (hs : SameEdges d d') (a b : α) : d'.hasEdge a b = d.hasEdge a b := by
  unfold LevelGraph.hasEdge
  rw [indexOf?_congr hs.labels, indexOf?_congr hs.labels]
  simp only [hs.outgoingAt]

/-- Other levels that keep their promises keep the invariant. -/
theorem Valid.of_sameEdges (h : d.Valid) (hs : SameEdges d d') (hl : d'.Leveled) : d'.Valid where
  leveled := hl
  labels := by
    rw [hs.labels]
    exact h.labels
  acyclic := by
    intro i j he
    rw [Reaches, hs.edge] at *
    exact h.acyclic i j he
  edgeCount := by
    rw [hs.edgeCount, h.edgeCount]
    simp only [hs.hasEdge]

/-- Adds an edge between two vertices, by number. -/
def connect (d : LevelGraph α) (budget u v : Nat) : Bool × LevelGraph α :=
  if u = v then (false, d)
  else if (d.outgoingAt u).contains v then (true, d)
  else if d.levelAt u < d.levelAt v then (true, d.link u v)
  else
    match d.prepare budget u v with
    | none => (false, d)
    | some d => (true, d.link u v)

theorem addEdgeWithin_eq {budget : LevelGraph α → Nat} {a b : α} {d₁ d₂ : LevelGraph α}
    (h₁ : (d.addVertex a).2 = d₁) (h₂ : (d₁.addVertex b).2 = d₂) :
    d.addEdgeWithin budget a b =
      d₂.connect (budget d₂) (d.addVertex a).1 (d₁.addVertex b).1 := by
  subst h₁ h₂
  rfl

omit [DecidableEq α] in
theorem labels_connect {budget u v : Nat} :
    (d.connect budget u v).2.vertices.map (·.label) = d.vertices.map (·.label) := by
  rw [connect]
  split_ifs
  · rfl
  · rfl
  · exact labels_link
  · cases hres : d.prepare budget u v with
    | none => rfl
    | some d' => exact labels_link.trans (sameEdges_of_prepare hres).labels

theorem addEdgeWithin_of_indexOf? {budget : LevelGraph α → Nat} {a b : α} {u v : Nat}
    (ha : d.indexOf? a = some u) (hb : d.indexOf? b = some v) :
    d.addEdgeWithin budget a b = d.connect (budget d) u v := by
  have hu : d.addVertex a = (u, d) := by rw [addVertex, ha]
  have hv : d.addVertex b = (v, d) := by rw [addVertex, hb]
  have hsame : (d.addVertex a).2 = d := by rw [hu]
  have hsame' : (d.addVertex b).2 = d := by rw [hv]
  rw [addEdgeWithin_eq hsame hsame', hu, hv]

/-- What connecting two vertices does. -/
theorem Valid.connect (h : d.Valid) {a b : α} {u v : Nat} (ha : d.indexOf? a = some u)
    (hb : d.indexOf? b = some v) (budget : Nat) :
    (d.connect budget u v).2.Valid ∧
      ((d.connect budget u v).1 = true ↔ a ≠ b ∧ ¬ d.Leads b a) ∧
      ((d.connect budget u v).1 = true →
        ∀ x y, (d.connect budget u v).2.hasEdge x y ↔ d.hasEdge x y ∨ x = a ∧ y = b) ∧
      ((d.connect budget u v).1 = false → (d.connect budget u v).2 = d) := by
  have hu := lt_length_of_indexOf? ha
  have hv := lt_length_of_indexOf? hb
  have hab : a = b ↔ u = v :=
    ⟨fun hab => Option.some.inj (ha.symm.trans (hab ▸ hb)), fun huv => indexOf?_inj ha (huv ▸ hb)⟩
  rw [Ne, hab, leads_iff h.labels hb ha, LevelGraph.connect]
  by_cases huv : u = v
  · rw [if_pos huv]
    simp [h, huv]
  rw [if_neg huv]
  by_cases he : d.Edge u v
  · -- The edge is there already, and the graph is acyclic.
    rw [if_pos (by simpa [Edge] using he)]
    have hvu := h.acyclic u v he
    have hmem : d.hasEdge a b := hasEdge_iff.2 ⟨u, v, ha, hb, he⟩
    refine ⟨h, by simp [huv, hvu], fun _ x y => ⟨.inl, ?_⟩, by simp⟩
    rintro (hxy | ⟨rfl, rfl⟩)
    · exact hxy
    · exact hmem
  rw [if_neg (by simpa [Edge] using he)]
  by_cases hlt : d.levelAt u < d.levelAt v
  · -- Paths do not go down, so none leads from `v` to `u`.
    rw [if_pos hlt]
    have hvu : ¬ d.Reaches v u := by
      intro hr
      have := h.leveled.reaches_level_le hr
      omega
    obtain ⟨hvalid, hedge⟩ := h.link ha hb he hvu hlt.le
    exact ⟨hvalid, by simp [huv, hvu], fun _ => hedge, by simp⟩
  rw [if_neg hlt]
  have hprepare := prepare_spec h.leveled hu hv huv (Nat.le_of_not_lt hlt) budget
  cases hres : d.prepare budget u v with
  | none =>
    rw [hres] at hprepare
    have hvu : d.Reaches v u := hprepare
    simp [h, hvu]
  | some d' =>
    rw [hres] at hprepare
    obtain ⟨hvu, hl, hs, hle⟩ := hprepare
    have hd' := h.of_sameEdges hs hl
    have ha' : d'.indexOf? a = some u := (indexOf?_congr hs.labels a).trans ha
    have hb' : d'.indexOf? b = some v := (indexOf?_congr hs.labels b).trans hb
    obtain ⟨hvalid, hedge⟩ := hd'.link ha' hb' (by rw [hs.edge]; exact he)
      (by rw [Reaches, hs.edge]; exact hvu) hle
    refine ⟨hvalid, by simp [huv, hvu], fun _ x y => ?_, by simp⟩
    rw [hedge, hs.hasEdge]

/-- What adding an edge does to a graph. -/
structure Insertion (d : LevelGraph α) (a b : α) (answer : Bool × LevelGraph α) : Prop where
  valid : answer.2.Valid
  accepted_iff : answer.1 = true ↔ a ≠ b ∧ ¬ d.Leads b a
  accepted : answer.1 = true → ∀ x y, answer.2.hasEdge x y ↔ d.hasEdge x y ∨ x = a ∧ y = b
  refused : answer.1 = false → ∃ labels, (∀ x ∈ labels, (x = a ∨ x = b) ∧ d.contains x = false) ∧
    answer.2 = d.withFresh labels

/-- **An insertion** accepts an edge exactly if it closes no cycle; a refused one adds vertices
only. -/
theorem Valid.addEdgeWithin (h : d.Valid) (budget : LevelGraph α → Nat) (a b : α) :
    Insertion d a b (d.addEdgeWithin budget a b) := by
  obtain ⟨xs, hd₁, hxs, h₁, ha⟩ := h.addVertex a
  obtain ⟨ys, hd₂, hys, h₂, hb⟩ := h₁.addVertex b
  have hedge : ∀ x y, ((d.withFresh xs).withFresh ys).hasEdge x y ↔ d.hasEdge x y :=
    fun x y => (hasEdge_withFresh h₁.leveled).trans (hasEdge_withFresh h.leveled)
  have hleads : ((d.withFresh xs).withFresh ys).Leads = d.Leads := by
    unfold Leads
    simp only [hedge]
  have hconnect := h₂.connect (indexOf?_withFresh ha) hb (budget ((d.withFresh xs).withFresh ys))
  rw [addEdgeWithin_eq hd₁ hd₂]
  simp only [hleads, hedge] at hconnect
  obtain ⟨hvalid, hiff, haccepted, hrefused⟩ := hconnect
  refine ⟨hvalid, hiff, haccepted, fun hanswer => ⟨xs ++ ys, fun x hx => ?_, ?_⟩⟩
  · rcases List.mem_append.1 hx with hx | hx
    · exact ⟨.inl (hxs x hx).1, (hxs x hx).2⟩
    · obtain ⟨hxb, hnot⟩ := hys x hx
      refine ⟨.inr hxb, ?_⟩
      cases hi : d.indexOf? x with
      | none => simp [contains, hi]
      | some i => simp [contains, indexOf?_withFresh hi] at hnot
  · rw [hrefused hanswer, withFresh_withFresh]

end

/-! ### Histories -/

/-- A call that builds a graph; every call to add an edge may have a budget of its own. -/
inductive Call (α : Type) where
  | vertex (a : α)
  | edge (budget : LevelGraph α → Nat) (a b : α)

/-- The graph after some calls. -/
def after : LevelGraph α → List (Call α) → LevelGraph α
  | d, [] => d
  | d, .vertex a :: calls => after (d.addVertex a).2 calls
  | d, .edge budget a b :: calls => after (d.addEdgeWithin budget a b).2 calls

/-- The edges that some calls add with success. -/
def accepted : LevelGraph α → List (Call α) → List (α × α)
  | _, [] => []
  | d, .vertex a :: calls => accepted (d.addVertex a).2 calls
  | d, .edge budget a b :: calls =>
    let rest := accepted (d.addEdgeWithin budget a b).2 calls
    if (d.addEdgeWithin budget a b).1 then (a, b) :: rest else rest

/-- The invariant holds after any calls, and the edges are those that were accepted. -/
theorem Valid.after (h : d.Valid) (calls : List (Call α)) : (d.after calls).Valid ∧
    ∀ x y, (d.after calls).hasEdge x y ↔ d.hasEdge x y ∨ (x, y) ∈ accepted d calls := by
  induction calls generalizing d with
  | nil => exact ⟨h, by simp [LevelGraph.after, accepted]⟩
  | cons call calls ih =>
    cases call with
    | vertex a =>
      obtain ⟨labels, hd, -, hvalid, -⟩ := h.addVertex a
      obtain ⟨hafter, hedges⟩ := ih hvalid
      rw [LevelGraph.after, accepted, hd]
      refine ⟨hafter, fun x y => ?_⟩
      rw [hedges, hasEdge_withFresh h.leveled]
    | edge budget a b =>
      have hinsert := h.addEdgeWithin budget a b
      obtain ⟨hafter, hedges⟩ := ih hinsert.valid
      rw [LevelGraph.after, accepted]
      refine ⟨hafter, fun x y => ?_⟩
      rw [hedges]
      cases hanswer : (d.addEdgeWithin budget a b).1 with
      | true => simp [hinsert.accepted hanswer, or_assoc]
      | false =>
        obtain ⟨labels, -, hd⟩ := hinsert.refused hanswer
        rw [hd, hasEdge_withFresh h.leveled]
        simp

/-- **Cycle rejection is exact.** After any calls, and whatever the budgets, an edge is accepted
exactly if its ends differ and its target does not lead to its source along the edges accepted so
far.  Then the edges are the old ones and the new one; otherwise nothing changes but for new
vertices.  The edges are counted in both cases. -/
theorem addEdge_exact (calls : List (Call α)) (budget : LevelGraph α → Nat) (a b : α) :
    let d := after {} calls
    let edges := accepted {} calls
    let answer := d.addEdgeWithin budget a b
    (answer.1 = true ↔ a ≠ b ∧ ¬ ReflTransGen (fun x y => (x, y) ∈ edges) b a) ∧
      (answer.1 = true → ∀ x y, answer.2.hasEdge x y ↔ (x, y) ∈ edges ∨ x = a ∧ y = b) ∧
      (answer.1 = false → (∀ x y, answer.2.hasEdge x y ↔ (x, y) ∈ edges) ∧
        ∃ labels, (∀ x ∈ labels, (x = a ∨ x = b) ∧ d.contains x = false) ∧
          answer.2 = d.withFresh labels) ∧
      (answer.2.edgeCount : ℕ∞) = {p : α × α | answer.2.hasEdge p.1 p.2}.encard := by
  intro d edges answer
  obtain ⟨hvalid, hedges⟩ := valid_empty.after calls
  have hedge : ∀ x y, d.hasEdge x y ↔ (x, y) ∈ edges := by
    intro x y
    rw [hedges]
    simp [hasEdge, indexOf?, edges]
  have hinsert : Insertion d a b answer := hvalid.addEdgeWithin budget a b
  have hleads : d.Leads = ReflTransGen fun x y => (x, y) ∈ edges := by
    unfold Leads
    simp only [hedge]
  refine ⟨?_, fun hanswer x y => ?_, fun hanswer => ?_, hinsert.valid.edgeCount⟩
  · rw [hinsert.accepted_iff, hleads]
  · rw [hinsert.accepted hanswer, hedge]
  · obtain ⟨labels, hlabels, heq⟩ := hinsert.refused hanswer
    refine ⟨fun x y => ?_, labels, hlabels, heq⟩
    rw [heq, hasEdge_withFresh hvalid.leveled, hedge]

end Mixfix.LevelGraph
