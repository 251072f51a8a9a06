import Mixfix.Proofs.LevelGraph.Insertion

/-!
# Searches that go through sets in any order

The predecessors and successors of a vertex, and the changes of a draft, are sets: a search may go
through them in any order, and then meets a vertex or spends its budget at another place.  What an
insertion makes of the graph does not depend on that.  A backward search that does not find its
target spends the budget exactly if too many edges on one level lead to its source; and a raise
lifts exactly what lies after its vertex to the new level.

* `LevelGraph.SearchesBackward`, `LevelGraph.SearchesForward`, `LevelGraph.Raises`,
  `LevelGraph.Prepares`: the parts of an insertion, under any order of the sets.
* `LevelGraph.Proper`: levels keep their promises, and sets hold nothing twice.
* `LevelGraph.SearchesBackward.spec`: when the budget is spent.
* `LevelGraph.Prepares.spec`: the levels after preparing an edge.
-/

namespace Mixfix.LevelGraph

open Relation

variable {α : Type} {d d' : LevelGraph α}

/-! ### Searches -/

/-- A backward search for `v` that goes through the predecessors of every vertex in some order. -/
inductive SearchesBackward (d : LevelGraph α) (v : Nat) :
    (visited pending : List Nat) → (budget : Nat) → Backward → Prop where
  | done {visited : List Nat} {budget : Nat} :
      SearchesBackward d v visited [] budget (.visited visited)
  | stop {x : Nat} {ws visited pending : List Nat} {budget : Nat} {answer : Backward} :
      ws.Perm (d.incomingAt x) → backwardOver v ws visited [] budget = .inl answer →
      SearchesBackward d v visited (x :: pending) budget answer
  | next {x : Nat} {ws visited visited' pending found : List Nat} {budget budget' : Nat}
      {answer : Backward} :
      ws.Perm (d.incomingAt x) →
      backwardOver v ws visited [] budget = .inr (visited', found, budget') →
      SearchesBackward d v visited' (found ++ pending) budget' answer →
      SearchesBackward d v visited (x :: pending) budget answer

/-- A forward search that goes through the edges of every vertex in some order. -/
inductive SearchesForward (d : LevelGraph α) (backward : List Nat) :
    (pending : List Nat) → Draft → Option Draft → Prop where
  | done {t : Draft} : SearchesForward d backward [] t (some t)
  | stop {x : Nat} {ys pending : List Nat} {t : Draft} : ys.Perm (d.outgoingAt x) →
      forwardOver d backward x (t.levelAt d x) ys t [] = none →
      SearchesForward d backward (x :: pending) t none
  | next {x : Nat} {ys pending raised : List Nat} {t t' : Draft} {answer : Option Draft} :
      ys.Perm (d.outgoingAt x) →
      forwardOver d backward x (t.levelAt d x) ys t [] = some (t', raised) →
      SearchesForward d backward (raised ++ pending) t' answer →
      SearchesForward d backward (x :: pending) t answer

/-- Makes one change of a vertex. -/
def write {β : Type} (set : Vertex α → β → Vertex α) (d : LevelGraph α) (change : Nat × β) :
    LevelGraph α :=
  { d with vertices := d.vertices.modify change.1 (set · change.2) }

/-- Makes changes of levels and of predecessors, one by one. -/
def writeAll (d : LevelGraph α) (levels : List (Nat × Nat)) (incoming : List (Nat × List Nat)) :
    LevelGraph α :=
  incoming.foldl (write fun x known => { x with incoming := known })
    (levels.foldl (write fun x level => { x with level }) d)

/-- Raising `v`: the changes of the draft are made one by one, in some order. -/
inductive Raises (d : LevelGraph α) (v level : Nat) (backward : List Nat) :
    Option (LevelGraph α) → Prop where
  | refused : SearchesForward d backward [v] ⟨[(v, level)], [(v, [])]⟩ none →
      Raises d v level backward none
  | raised {t : Draft} {levels : List (Nat × Nat)} {incoming : List (Nat × List Nat)} :
      SearchesForward d backward [v] ⟨[(v, level)], [(v, [])]⟩ (some t) →
      levels.Perm t.levels → incoming.Perm t.incoming →
      Raises d v level backward (some (d.writeAll levels incoming))

/-- Preparing an edge from `u` to `v`, with searches of this kind. -/
inductive Prepares (d : LevelGraph α) (budget u v : Nat) : Option (LevelGraph α) → Prop where
  | cycle : SearchesBackward d v [u] [u] budget .cycle → Prepares d budget u v none
  | spent {answer : Option (LevelGraph α)} : SearchesBackward d v [u] [u] budget .spent →
      Raises d v (d.levelAt u + 1) [u] answer → Prepares d budget u v answer
  | below {backward : List Nat} {answer : Option (LevelGraph α)} :
      SearchesBackward d v [u] [u] budget (.visited backward) → d.levelAt v < d.levelAt u →
      Raises d v (d.levelAt u) backward answer → Prepares d budget u v answer
  | level {backward : List Nat} : SearchesBackward d v [u] [u] budget (.visited backward) →
      ¬ d.levelAt v < d.levelAt u → Prepares d budget u v (some d)

/-- Levels keep their promises, and the sets of the vertices hold nothing twice. -/
structure Proper (d : LevelGraph α) : Prop where
  leveled : d.Leveled
  outgoing : ∀ i, (d.outgoingAt i).Nodup
  incoming : ∀ i, (d.incomingAt i).Nodup

/-! ### Backward -/

/-- Every predecessor that is gone through costs one of the budget. -/
theorem backwardOver_budget {v : Nat} {ws visited found visited' found' : List Nat}
    {budget budget' : Nat}
    (h : backwardOver v ws visited found budget = .inr (visited', found', budget')) :
    ws.length + (budget' - 1) = budget - 1 := by
  induction ws generalizing visited found budget with
  | nil =>
    cases h
    exact Nat.zero_add _
  | cons w ws ih =>
    rw [backwardOver] at h
    rw [List.length_cons]
    split_ifs at h with hv hb hc
    · have := ih h
      omega
    · have := ih h
      omega

theorem backwardOver_spent {v : Nat} {ws visited found : List Nat} {budget : Nat}
    (h : backwardOver v ws visited found budget = .inl .spent) : budget - 1 < ws.length := by
  induction ws generalizing visited found budget with
  | nil => cases h
  | cons w ws ih =>
    rw [backwardOver] at h
    rw [List.length_cons]
    split_ifs at h with hv hb hc
    · cases h
    · omega
    · have := ih h
      omega
    · have := ih h
      omega

/-- The edges on the level of `u` between vertices that reach it. -/
def arcs (d : LevelGraph α) (u : Nat) : Set (Nat × Nat) :=
  {p | d.Edge p.1 p.2 ∧ d.levelAt p.1 = d.levelAt p.2 ∧ d.Reaches p.2 u ∧
    d.levelAt p.2 = d.levelAt u}

/-- The budget does not allow to go through all these edges. -/
def Spends (d : LevelGraph α) (budget u : Nat) : Prop :=
  ((budget - 1 : Nat) : ℕ∞) < (d.arcs u).encard

/-- The edges from predecessors of some vertices. -/
def arcsInto (d : LevelGraph α) (xs : List Nat) : List (Nat × Nat) :=
  xs.flatMap fun x => (d.incomingAt x).map (·, x)

theorem mem_arcsInto {xs : List Nat} {p : Nat × Nat} :
    p ∈ d.arcsInto xs ↔ p.2 ∈ xs ∧ p.1 ∈ d.incomingAt p.2 := by
  obtain ⟨w, x⟩ := p
  simp [arcsInto, and_comm]

theorem length_arcsInto_cons (x : Nat) (xs : List Nat) :
    (d.arcsInto (x :: xs)).length = (d.incomingAt x).length + (d.arcsInto xs).length := by
  simp [arcsInto]

theorem Proper.nodup_arcsInto (hd : d.Proper) {xs : List Nat} (hn : xs.Nodup) :
    (d.arcsInto xs).Nodup := by
  refine List.nodup_flatMap.2 ⟨fun x _ => (hd.incoming x).map fun a b h => congrArg Prod.fst h, ?_⟩
  refine hn.imp fun {x y} hxy => ?_
  rw [Function.onFun, List.disjoint_left]
  rintro p hp hp'
  obtain ⟨a, -, rfl⟩ := List.mem_map.1 hp
  obtain ⟨b, -, h⟩ := List.mem_map.1 hp'
  exact hxy (congrArg Prod.snd h).symm

/-- Different vertices that reach `u` on its level have no more such edges than there are. -/
theorem Proper.length_arcsInto_le (hd : d.Proper) {u : Nat} {xs : List Nat} (hn : xs.Nodup)
    (hreach : ∀ x ∈ xs, d.Reaches x u ∧ d.levelAt x = d.levelAt u) :
    ((d.arcsInto xs).length : ℕ∞) ≤ (d.arcs u).encard := by
  rw [← List.toFinset_card_of_nodup (hd.nodup_arcsInto hn), ← Set.encard_coe_eq_coe_finsetCard]
  refine Set.encard_le_encard fun p hp => ?_
  rw [List.coe_toFinset] at hp
  obtain ⟨hx, hw⟩ := mem_arcsInto.1 hp
  obtain ⟨hedge, hlevel⟩ := hd.leveled.mem_incoming.1 hw
  exact ⟨hedge, hlevel, hreach _ hx⟩

/-- All vertices that reach `u` on its level have all these edges. -/
theorem Leveled.encard_arcs_le (hl : d.Leveled) {u : Nat} {xs : List Nat}
    (hall : ∀ x, d.Reaches x u → d.levelAt x = d.levelAt u → x ∈ xs) :
    (d.arcs u).encard ≤ (d.arcsInto xs).length := by
  have hsub : d.arcs u ⊆ ((d.arcsInto xs).toFinset : Set (Nat × Nat)) := by
    rintro p ⟨hedge, hlevel, hreach, hlevel'⟩
    rw [List.coe_toFinset]
    exact mem_arcsInto.2 ⟨hall _ hreach hlevel', hl.mem_incoming.2 ⟨hedge, hlevel⟩⟩
  refine (Set.encard_le_encard hsub).trans ?_
  rw [Set.encard_coe_eq_coe_finsetCard]
  exact_mod_cast List.toFinset_card_le _

/-- What the end of a backward search says of the budget. -/
def Backward.Counted (d : LevelGraph α) (budget u : Nat) : Backward → Prop
  | .cycle => True
  | .spent => d.Spends budget u
  | .visited _ => ¬ d.Spends budget u

/-- **The backward search** under any order: what it finds is right, and where it does not find its
target it spends the budget exactly if there are too many edges. -/
theorem SearchesBackward.sound (hd : d.Proper) {u v budget rest : Nat}
    {visited opened pending : List Nat} {answer : Backward}
    (h : d.SearchesBackward v visited pending rest answer)
    (hv : Visiting d u v visited opened pending)
    (hlevel : ∀ x ∈ visited, d.levelAt x = d.levelAt u)
    (hrest : (d.arcsInto opened).length + (rest - 1) = budget - 1) :
    answer.Sound d u v ∧ answer.Counted d budget u := by
  induction h generalizing opened with
  | @done visited rest =>
    have hopened : ∀ x ∈ visited, x ∈ opened := fun x hx => by simpa using hv.perm.mem_iff.1 hx
    have hall : ∀ x, d.Reaches x u → d.levelAt x = d.levelAt u → x ∈ visited :=
      fun x hx hlevel => hd.leveled.mem_of_closed hv.source
        (fun y hy => hv.closed y (hopened y hy)) hx hlevel
    refine ⟨⟨hv.source, hv.target, hv.reaches, hall⟩, not_lt.2 ?_⟩
    refine (hd.leveled.encard_arcs_le fun x hx hxl => hopened x (hall x hx hxl)).trans ?_
    exact_mod_cast (show (d.arcsInto opened).length ≤ budget - 1 by omega)
  | @stop x ws visited pending rest answer hws hstop =>
    have hx : x ∈ visited := hv.perm.mem_iff.2 (by simp)
    rcases backwardOver_inl hstop with rfl | ⟨rfl, hmem⟩
    · -- The edges gone through, with those of this vertex, are more than the budget allows.
      have hmore := backwardOver_spent hstop
      rw [hws.length_eq] at hmore
      have hopened : ∀ y ∈ x :: opened, y ∈ visited := by
        intro y hy
        refine hv.perm.mem_iff.2 ?_
        rcases List.mem_cons.1 hy with rfl | hy
        · simp
        · exact List.mem_append_left _ hy
      have hnodup : (x :: opened).Nodup := by
        have := (hv.perm.nodup_iff.1 hv.nodup)
        rw [List.perm_middle.nodup_iff, List.nodup_cons] at this
        exact List.nodup_cons.2 ⟨fun hxo => this.1 (List.mem_append_left _ hxo),
          this.2.of_append_left⟩
      refine ⟨trivial, lt_of_lt_of_le ?_ (hd.length_arcsInto_le hnodup fun y hy =>
        ⟨hv.reaches y (hopened y hy), hlevel y (hopened y hy)⟩)⟩
      rw [length_arcsInto_cons]
      exact_mod_cast (show budget - 1 < (d.incomingAt x).length + (d.arcsInto opened).length by
        omega)
    · exact ⟨.head (hd.leveled.mem_incoming.1 (hws.mem_iff.1 hmem)).1 (hv.reaches x hx), trivial⟩
  | @next x ws visited visited' pending found rest rest' answer hws hgo _ ih =>
    have hx : x ∈ visited := hv.perm.mem_iff.2 (by simp)
    have hcost := backwardOver_budget hgo
    obtain ⟨more, rfl, rfl, hnodup, hmore, hnot, hall⟩ := backwardOver_inr hgo hv.nodup
    rw [hws.length_eq] at hcost
    refine @ih (x :: opened) ?_ ?_ ?_
    · rw [List.append_nil]
      exact hv.visit hd.leveled hnodup (fun w hw => hws.mem_iff.1 (hmore w hw))
        (fun h => hnot (hws.mem_iff.2 h)) fun w hw => hall w (hws.mem_iff.2 hw)
    · intro y hy
      rcases List.mem_append.1 hy with hy | hy
      · exact hlevel y hy
      · rw [(hd.leveled.mem_incoming.1 (hws.mem_iff.1 (hmore y hy))).2]
        exact hlevel x hx
    · rw [length_arcsInto_cons]
      omega

theorem SearchesBackward.spec (hd : d.Proper) {u v budget : Nat} (hu : u < d.vertices.length)
    (huv : u ≠ v) {answer : Backward} (h : d.SearchesBackward v [u] [u] budget answer) :
    answer.Sound d u v ∧ answer.Counted d budget u :=
  h.sound hd (visiting_start hu huv) (by simp) (by simp [arcsInto])

/-! ### Forward -/

/-- A forward search under any order runs into the backward set, or goes over all edges of the
vertices that it raises. -/
theorem SearchesForward.sound {backward opened pending : List Nat} {v level : Nat} {t : Draft}
    {answer : Option Draft} (h : d.SearchesForward backward pending t answer)
    (hm : v ∈ pending ++ opened)
    (hd : Drafted d backward v level (fun x y => x ∈ opened ∧ d.Edge x y) t (pending ++ opened)) :
    ForwardSound d backward v level answer := by
  induction h generalizing opened with
  | done => exact ⟨opened, hm, hd⟩
  | @stop x ys pending t hys hstop =>
    obtain ⟨y, hy, hback⟩ := forwardOver_none hstop
    exact ⟨y, hback, (hd.reaches List.mem_cons_self).tail (hys.mem_iff.1 hy)⟩
  | @next x ys pending raised t t' answer hys hgo _ ih =>
    rw [hd.levelAt_raised List.mem_cons_self] at hgo
    refine ih ?_ (hd.opens hys hgo)
    rcases List.mem_append.1 hm with hm | hm
    · rcases List.mem_cons.1 hm with rfl | hm
      · simp
      · simp [hm]
    · simp [hm]

theorem SearchesForward.spec {backward : List Nat} {v level : Nat} {answer : Option Draft}
    (h : d.SearchesForward backward [v] ⟨[(v, level)], [(v, [])]⟩ answer)
    (hlow : d.levelAt v < level) : ForwardSound d backward v level answer :=
  have hm : v ∈ [v] ++ [] := List.mem_singleton_self v
  h.sound hm (drafted_start backward hlow)

/-- A draft with one entry for a vertex at most, and sets that hold nothing twice. -/
structure Draft.Distinct (t : Draft) : Prop where
  levels : (t.levels.map (·.1)).Nodup
  incoming : (t.incoming.map (·.1)).Nodup
  sets : ∀ change ∈ t.incoming, change.2.Nodup

namespace Draft

theorem nodup_set {β : Type} {m : List (Nat × β)} (h : (m.map (·.1)).Nodup) (k : Nat) (b : β) :
    ((set k b m).map (·.1)).Nodup := by
  rw [set, List.map_cons, List.nodup_cons]
  refine ⟨?_, h.sublist (List.filter_sublist.map _)⟩
  simp

namespace Distinct

variable {t : Draft}

theorem incomingAt (h : t.Distinct) (hd : d.Proper) (y : Nat) : (t.incomingAt d y).Nodup := by
  rw [Draft.incomingAt]
  cases hy : t.incoming.lookup y with
  | none => exact hd.incoming y
  | some known => exact h.sets _ ((lookup_eq_some_iff_mem h.incoming).1 hy)

theorem set (h : t.Distinct) (y : Nat) {known : List Nat} (hknown : known.Nodup) :
    ∀ change ∈ Draft.set y known t.incoming, change.2.Nodup := by
  intro change hchange
  rcases List.mem_cons.1 hchange with rfl | hchange
  · exact hknown
  · exact h.sets change (List.mem_filter.1 hchange).1

theorem lift (h : t.Distinct) (x y level : Nat) : (t.lift x y level).Distinct where
  levels := nodup_set h.levels y level
  incoming := nodup_set h.incoming y [x]
  sets := h.set y (List.nodup_singleton x)

theorem note (h : t.Distinct) (hd : d.Proper) (x y : Nat) : (t.note d x y).Distinct where
  levels := h.levels
  incoming := nodup_set h.incoming y _
  sets := by
    refine h.set y ?_
    have hknown := h.incomingAt hd y
    split
    · exact hknown
    · next hx =>
      have hx : x ∉ t.incomingAt d y := by simpa using hx
      exact List.nodup_append.2 ⟨hknown, List.nodup_singleton x,
        fun a ha b hb hab => hx (List.mem_singleton.1 hb ▸ hab ▸ ha)⟩

theorem forwardOver (h : t.Distinct) (hd : d.Proper) {backward : List Nat} {x level : Nat}
    {ys found found' : List Nat} {t' : Draft}
    (hgo : forwardOver d backward x level ys t found = some (t', found')) : t'.Distinct := by
  induction ys generalizing t found with
  | nil =>
    cases hgo
    exact h
  | cons y ys ih =>
    rw [forwardOver_cons] at hgo
    split_ifs at hgo
    · exact ih (h.lift x y level) hgo
    · exact ih (h.note hd x y) hgo
    · exact ih h hgo

end Distinct

end Draft

theorem SearchesForward.distinct (hd : d.Proper) {backward pending : List Nat} {t t' : Draft}
    {answer : Option Draft} (h : d.SearchesForward backward pending t answer) (ht : t.Distinct)
    (hanswer : answer = some t') : t'.Distinct := by
  induction h with
  | done =>
    cases hanswer
    exact ht
  | stop => cases hanswer
  | next _ hgo _ ih => exact ih (ht.forwardOver hd hgo) hanswer

/-! ### Changes -/

theorem getElem?_write {β : Type} {set : Vertex α → β → Vertex α} {changes : List (Nat × β)}
    (hn : (changes.map (·.1)).Nodup) (i : Nat) :
    (changes.foldl (write set) d).vertices[i]? =
      (d.vertices[i]?).map fun x => (changes.lookup i).elim x (set x) := by
  induction changes generalizing d with
  | nil => simp
  | cons change changes ih =>
    obtain ⟨k, b⟩ := change
    obtain ⟨hk, hn⟩ := List.nodup_cons.1 hn
    rw [List.foldl_cons, ih hn, write, List.getElem?_modify, List.lookup_cons]
    by_cases hki : k = i
    · subst hki
      -- No later change is one of this vertex.
      have hnone : changes.lookup k = none := by
        refine List.lookup_eq_none_iff.2 fun p hp => ?_
        have : k ≠ p.1 := fun heq => hk (heq ▸ List.mem_map_of_mem (f := (·.1)) hp)
        simpa using this
      cases d.vertices[k]? <;> simp [hnone]
    · have hik : (i == k) = false := by simpa using Ne.symm hki
      cases d.vertices[i]? <;> simp [hki, hik]

theorem edgeCount_write {β : Type} {set : Vertex α → β → Vertex α} (changes : List (Nat × β)) :
    (changes.foldl (write set) d).edgeCount = d.edgeCount := by
  induction changes generalizing d with
  | nil => rfl
  | cons change changes ih => exact ih

/-- The changes of a draft may be made in any order. -/
theorem writeAll_eq_apply {t : Draft} (ht : t.Distinct) {levels : List (Nat × Nat)}
    {incoming : List (Nat × List Nat)} (hlevels : levels.Perm t.levels)
    (hincoming : incoming.Perm t.incoming) : d.writeAll levels incoming = d.apply t := by
  have hn := (hlevels.map (·.1)).nodup_iff.2 ht.levels
  have hn' := (hincoming.map (·.1)).nodup_iff.2 ht.incoming
  have hvertices : (d.writeAll levels incoming).vertices = (d.apply t).vertices := by
    refine List.ext_getElem? fun i => ?_
    rw [writeAll, getElem?_write hn', getElem?_write hn, apply, List.getElem?_mapIdx,
      lookup_eq_of_perm hlevels ht.levels, lookup_eq_of_perm hincoming ht.incoming, Draft.levelAt,
      Draft.incomingAt, levelAt, incomingAt]
    cases d.vertices[i]? with
    | none => rfl
    | some x => cases t.levels.lookup i <;> cases t.incoming.lookup i <;> rfl
  have hcount : (d.writeAll levels incoming).edgeCount = (d.apply t).edgeCount := by
    rw [writeAll, edgeCount_write, edgeCount_write]
    rfl
  cases hw : d.writeAll levels incoming
  cases ha : d.apply t
  rw [hw, ha] at hvertices hcount
  exact congrArg₂ LevelGraph.mk hvertices hcount

/-! ### Preparing -/

/-- What lies after `v` is lifted to a level. -/
def Lifts (d d' : LevelGraph α) (v level : Nat) : Prop :=
  ∀ i, (d.Reaches v i → d'.levelAt i = max (d.levelAt i) level) ∧
    (¬ d.Reaches v i → d'.levelAt i = d.levelAt i)

open Classical in
/-- The level that preparing an edge from `u` makes room for. -/
noncomputable def crest (d : LevelGraph α) (budget u : Nat) : Nat :=
  if d.Spends budget u then d.levelAt u + 1 else d.levelAt u

theorem levelAt_of_le {i : Nat} (hi : d.vertices.length ≤ i) : d.levelAt i = 0 := by
  rw [levelAt, List.getElem?_eq_none hi]
  rfl

/-- A draft that has gone over all edges of the vertices it raises lifts exactly what lies after
`v`. -/
theorem Drafted.lifts (hl : d.Leveled) {backward raised : List Nat} {v level : Nat} {t : Draft}
    (hv : v < d.vertices.length) (hvr : v ∈ raised)
    (h : Drafted d backward v level (fun x y => x ∈ raised ∧ d.Edge x y) t raised) :
    d.Lifts (d.apply t) v level := by
  -- Along a path from `v` the vertices are raised until one is high enough.
  have hraised : ∀ i, d.Reaches v i → d.levelAt i < level → i ∈ raised := by
    intro i hi
    induction hi with
    | refl => exact fun _ => hvr
    | @tail x y hx he ih =>
      intro hy
      have hxr := ih ((hl.level_le he).trans_lt hy)
      by_contra hyr
      have hpassed := (h.passed ⟨hxr, he⟩).2.2
      rw [h.levelAt_other hyr] at hpassed
      omega
  intro i
  refine ⟨fun hi => ?_, fun hi => ?_⟩
  · rw [levelAt_apply (hl.reaches_lt_length hv hi)]
    by_cases hlow : d.levelAt i < level
    · rw [h.levelAt_raised (hraised i hi hlow), Nat.max_eq_right hlow.le]
    · have hir : i ∉ raised := fun hir => hlow (h.low hir)
      rw [h.levelAt_other hir, Nat.max_eq_left (Nat.le_of_not_lt hlow)]
  · by_cases hlen : i < d.vertices.length
    · rw [levelAt_apply hlen, h.levelAt_other fun hir => hi (h.reaches hir)]
    · have hlen := Nat.le_of_not_lt hlen
      rw [levelAt_of_le hlen, levelAt_of_le (by rwa [(sameEdges_apply d t).length_eq])]

/-- What preparing an edge comes to: it decides whether the edge closes a cycle, and lifts what lies
after its target. -/
def PrepareExact (d : LevelGraph α) (u v level : Nat) (answer : Option (LevelGraph α)) : Prop :=
  PrepareSound d u v answer ∧ ∀ d' ∈ answer, d'.Proper ∧ d.Lifts d' v level

theorem Raises.spec (hd : d.Proper) {u v level : Nat} {backward : List Nat}
    (hu : u < d.vertices.length) (hv : v < d.vertices.length) (huv : u ≠ v)
    (hlow : d.levelAt v < level) (hbars : d.Bars u level backward)
    {answer : Option (LevelGraph α)} (h : d.Raises v level backward answer) :
    d.PrepareExact u v level answer := by
  cases h with
  | refused h =>
    refine ⟨(h.spec hlow).prepareSound hd.leveled hu hv huv hbars, ?_⟩
    rintro _ ⟨⟩
  | @raised t levels incoming h hlevels hincoming =>
    have ht : t.Distinct :=
      h.distinct hd ⟨List.nodup_singleton v, List.nodup_singleton v, by simp⟩ rfl
    have hsound := h.spec hlow
    rw [writeAll_eq_apply ht hlevels hincoming]
    refine ⟨hsound.prepareSound hd.leveled hu hv huv hbars, ?_⟩
    obtain ⟨raised, hvr, hdrafted⟩ := hsound
    rintro _ ⟨⟩
    refine ⟨⟨hdrafted.leveled hd.leveled, fun i => ?_, fun i => ?_⟩,
      hdrafted.lifts hd.leveled hv hvr⟩
    · rw [(sameEdges_apply d t).outgoingAt]
      exact hd.outgoing i
    · by_cases hi : i < d.vertices.length
      · rw [incomingAt_apply hi]
        exact ht.incomingAt hd i
      · have hnil : (d.apply t).incomingAt i = [] := by
          refine List.eq_nil_iff_forall_not_mem.2 fun w hw => hi ?_
          rw [← (sameEdges_apply d t).length_eq]
          exact lt_length_of_mem_incomingAt hw
        rw [hnil]
        exact List.nodup_nil

/-- **Preparing** an edge under any order refuses it exactly if it closes a cycle; otherwise it
lifts exactly what lies after its target, to a level that the order does not change. -/
theorem Prepares.spec (hd : d.Proper) {budget u v : Nat} (hu : u < d.vertices.length)
    (hv : v < d.vertices.length) (huv : u ≠ v) (hle : d.levelAt v ≤ d.levelAt u)
    {answer : Option (LevelGraph α)} (h : d.Prepares budget u v answer) :
    d.PrepareExact u v (d.crest budget u) answer := by
  cases h with
  | cycle h =>
    refine ⟨(h.spec hd hu huv).1, ?_⟩
    rintro _ ⟨⟩
  | spent h hraises =>
    have hspends : d.Spends budget u := (h.spec hd hu huv).2
    rw [crest, if_pos hspends]
    exact hraises.spec hd hu hv huv (Nat.lt_succ_of_le hle) (hd.leveled.bars u)
  | below h hlow hraises =>
    obtain ⟨hsound, hcounted : ¬ d.Spends budget u⟩ := h.spec hd hu huv
    rw [crest, if_neg hcounted]
    exact hraises.spec hd hu hv huv hlow (hd.leveled.bars_of_visited hsound)
  | level h hnlow =>
    obtain ⟨hsound, hcounted : ¬ d.Spends budget u⟩ := h.spec hd hu huv
    have hlevel := Nat.le_of_not_lt hnlow
    rw [crest, if_neg hcounted]
    refine ⟨hd.leveled.prepareSound_of_visited hsound hlevel, ?_⟩
    rintro _ ⟨⟩
    refine ⟨hd, fun i => ⟨fun hi => ?_, fun _ => rfl⟩⟩
    have := hd.leveled.reaches_level_le hi
    exact (Nat.max_eq_left (by omega)).symm

end Mixfix.LevelGraph
