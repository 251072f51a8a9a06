import Mathlib.Data.List.Basic
import Mathlib.Data.List.Perm.Basic
import Mathlib.Logic.Relation
import Mixfix.LevelGraph
import Mixfix.Proofs.Fixpoint

/-!
# The two searches of a level graph

Levels do not fall along an edge, and a vertex knows its predecessors on its own level.  So the
backward search of a vertex finds all that reaches it on its level, unless it stops early; and the
forward search raises all that it can reach below the new level, unless it runs into the backward
set.

* `LevelGraph.Leveled`: what the levels and the predecessors of a graph promise.
* `LevelGraph.searchBackward_spec`: what the end of a backward search means.
* `LevelGraph.Drafted`: what a draft holds when some edges have been gone over.
* `LevelGraph.searchForward_spec`: what the end of a forward search means.
-/

namespace Mixfix.LevelGraph

variable {α : Type} {d : LevelGraph α}

/-- There is an edge between two vertices, by number. -/
def Edge (d : LevelGraph α) (i j : Nat) : Prop := j ∈ d.outgoingAt i

/-- A vertex leads to another along edges. -/
def Reaches (d : LevelGraph α) : Nat → Nat → Prop := Relation.ReflTransGen d.Edge

/-- Edges lead to vertices and not down, and every vertex knows its predecessors on its level. -/
structure Leveled (d : LevelGraph α) : Prop where
  lt_length : ∀ {i j : Nat}, d.Edge i j → j < d.vertices.length
  level_le : ∀ {i j : Nat}, d.Edge i j → d.levelAt i ≤ d.levelAt j
  mem_incoming : ∀ {i j : Nat}, i ∈ d.incomingAt j ↔ d.Edge i j ∧ d.levelAt i = d.levelAt j

theorem Edge.source_lt {i j : Nat} (h : d.Edge i j) : i < d.vertices.length := by
  by_contra hn
  rw [Edge, outgoingAt, List.getElem?_eq_none (Nat.le_of_not_lt hn)] at h
  cases h

namespace Leveled

theorem reaches_level_le (hl : d.Leveled) {i j : Nat} (h : d.Reaches i j) :
    d.levelAt i ≤ d.levelAt j := by
  induction h with
  | refl => exact Nat.le_refl _
  | tail _ he ih => exact ih.trans (hl.level_le he)

theorem reaches_lt_length (hl : d.Leveled) {i j : Nat} (hi : i < d.vertices.length)
    (h : d.Reaches i j) : j < d.vertices.length := by
  induction h with
  | refl => exact hi
  | tail _ he _ => exact hl.lt_length he

end Leveled

/-! ### Backward -/

/-- Going through some predecessors: they are all visited afterwards, the new ones are found, and
the vertex looked for is not among them. -/
theorem backwardOver_inr {v : Nat} {ws visited found visited' found' : List Nat}
    {budget budget' : Nat}
    (h : backwardOver v ws visited found budget = .inr (visited', found', budget'))
    (hn : visited.Nodup) :
    ∃ more, visited' = visited ++ more ∧ found' = more.reverse ++ found ∧ visited'.Nodup ∧
      (∀ w ∈ more, w ∈ ws) ∧ v ∉ ws ∧ ∀ w ∈ ws, w ∈ visited' := by
  induction ws generalizing visited found budget with
  | nil =>
    cases h
    exact ⟨[], by simp [hn]⟩
  | cons w ws ih =>
    rw [backwardOver] at h
    split_ifs at h with hv hb hc
    · obtain ⟨more, hvis, hfound, hnd, hmore, hnot, hall⟩ := ih h hn
      have hw : w ∈ visited := by simpa using hc
      refine ⟨more, hvis, hfound, hnd, fun x hx => List.mem_cons_of_mem w (hmore x hx), ?_, ?_⟩
      · simp [hnot, Ne.symm hv]
      · intro x hx
        rcases List.mem_cons.1 hx with rfl | hx
        · rw [hvis]
          exact List.mem_append_left _ hw
        · exact hall x hx
    · have hw : w ∉ visited := by simpa using hc
      have hn' : (visited ++ [w]).Nodup := by
        refine List.nodup_append.2 ⟨hn, by simp, ?_⟩
        intro a ha b hb hab
        rw [List.mem_singleton] at hb
        exact hw (hb ▸ hab ▸ ha)
      obtain ⟨more, hvis, hfound, hnd, hmore, hnot, hall⟩ := ih h hn'
      refine ⟨w :: more, by simp [hvis], by simp [hfound], hnd, ?_, ?_, ?_⟩
      · intro x hx
        rcases List.mem_cons.1 hx with rfl | hx
        · exact List.mem_cons_self
        · exact List.mem_cons_of_mem w (hmore x hx)
      · simp [hnot, Ne.symm hv]
      · intro x hx
        rcases List.mem_cons.1 hx with rfl | hx
        · simp [hvis]
        · exact hall x hx

theorem backwardOver_inl {v : Nat} {ws visited found : List Nat} {budget : Nat} {stop : Backward}
    (h : backwardOver v ws visited found budget = .inl stop) :
    stop = .spent ∨ stop = .cycle ∧ v ∈ ws := by
  induction ws generalizing visited found budget with
  | nil => cases h
  | cons w ws ih =>
    rw [backwardOver] at h
    split_ifs at h with hv hb hc
    · cases h
      exact .inr ⟨rfl, hv ▸ List.mem_cons_self⟩
    · cases h
      exact .inl rfl
    · exact (ih h).imp_right fun ⟨hs, hm⟩ => ⟨hs, List.mem_cons_of_mem w hm⟩
    · exact (ih h).imp_right fun ⟨hs, hm⟩ => ⟨hs, List.mem_cons_of_mem w hm⟩

/-- The meaning of what a backward search from `u` for `v` finds. -/
def Backward.Sound (d : LevelGraph α) (u v : Nat) : Backward → Prop
  | .cycle => d.Reaches v u
  | .spent => True
  | .visited vertices => u ∈ vertices ∧ v ∉ vertices ∧ (∀ x ∈ vertices, d.Reaches x u) ∧
      ∀ x, d.Reaches x u → d.levelAt x = d.levelAt u → x ∈ vertices

/-- A set that is closed under predecessors on one level holds all that reaches `u` on its level. -/
theorem Leveled.mem_of_closed (hl : d.Leveled) {u : Nat} {vertices : List Nat} (hu : u ∈ vertices)
    (hclosed : ∀ x ∈ vertices, ∀ w ∈ d.incomingAt x, w ∈ vertices) {x : Nat} (hx : d.Reaches x u)
    (hlevel : d.levelAt x = d.levelAt u) : x ∈ vertices := by
  induction hx using Relation.ReflTransGen.head_induction_on with
  | refl => exact hu
  | @head x y he hy ih =>
    -- The levels between `x` and `u` are all the same.
    have hxy := hl.level_le he
    have hyu := hl.reaches_level_le hy
    have hy' : d.levelAt y = d.levelAt u := by omega
    exact hclosed y (ih hy') x (hl.mem_incoming.2 ⟨he, by omega⟩)

/-- What a backward search keeps: it visits vertices that reach `u`, each once, and has gone through
the predecessors of those it opened. -/
structure Visiting (d : LevelGraph α) (u v : Nat) (visited opened pending : List Nat) : Prop where
  source : u ∈ visited
  target : v ∉ visited
  nodup : visited.Nodup
  reaches : ∀ x ∈ visited, d.Reaches x u
  lt_length : ∀ x ∈ visited, x < d.vertices.length
  perm : visited.Perm (opened ++ pending)
  closed : ∀ x ∈ opened, ∀ w ∈ d.incomingAt x, w ∈ visited

/-- Opening a vertex keeps this, once its new predecessors are visited and pending. -/
theorem Visiting.visit (hl : d.Leveled) {u v x : Nat} {visited opened pending more : List Nat}
    (h : Visiting d u v visited opened (x :: pending)) (hnodup : (visited ++ more).Nodup)
    (hmore : ∀ w ∈ more, w ∈ d.incomingAt x) (hnot : v ∉ d.incomingAt x)
    (hall : ∀ w ∈ d.incomingAt x, w ∈ visited ++ more) :
    Visiting d u v (visited ++ more) (x :: opened) (more.reverse ++ pending) := by
  have hx : x ∈ visited := h.perm.mem_iff.2 (by simp)
  have hedge : ∀ w ∈ more, d.Edge w x := fun w hw => (hl.mem_incoming.1 (hmore w hw)).1
  refine
    { source := List.mem_append_left _ h.source
      target := ?_
      nodup := hnodup
      reaches := ?_
      lt_length := ?_
      perm := ?_
      closed := ?_ }
  · rw [List.mem_append]
    rintro (hv | hv)
    · exact h.target hv
    · exact hnot (hmore v hv)
  · intro w hw
    rcases List.mem_append.1 hw with hw | hw
    · exact h.reaches w hw
    · exact .head (hedge w hw) (h.reaches x hx)
  · intro w hw
    rcases List.mem_append.1 hw with hw | hw
    · exact h.lt_length w hw
    · exact (hedge w hw).source_lt
  · refine List.perm_iff_count.2 fun a => ?_
    have := List.perm_iff_count.1 h.perm a
    simp only [List.count_append, List.count_cons, List.count_reverse] at this ⊢
    omega
  · intro y hy w hw
    rcases List.mem_cons.1 hy with rfl | hy
    · exact hall w hw
    · exact List.mem_append_left _ (h.closed y hy w hw)

/-- A search opens no vertex twice. -/
theorem length_le_of_lt {n : Nat} {l : List Nat} (hn : l.Nodup) (hlt : ∀ x ∈ l, x < n) :
    l.length ≤ n := by
  have := hn.length_le_of_subset fun x hx => List.mem_range.2 (hlt x hx)
  rwa [List.length_range] at this

theorem searchBackward_sound (hl : d.Leveled) {u v bound budget : Nat}
    {visited opened pending : List Nat} (h : Visiting d u v visited opened pending)
    (hb : d.vertices.length + 1 ≤ bound + opened.length) :
    (d.searchBackward v bound visited pending budget).Sound d u v := by
  induction bound generalizing visited opened pending budget with
  | zero =>
    -- More vertices would have been opened than there are.
    have hlen := length_le_of_lt h.nodup h.lt_length
    rw [h.perm.length_eq, List.length_append] at hlen
    omega
  | succ bound ih =>
    cases pending with
    | nil =>
      have hopened : ∀ x ∈ visited, x ∈ opened := fun x hx => by simpa using h.perm.mem_iff.1 hx
      rw [searchBackward]
      exact ⟨h.source, h.target, h.reaches, fun x hx hlevel => hl.mem_of_closed h.source
        (fun y hy => h.closed y (hopened y hy)) hx hlevel⟩
    | cons x pending =>
      have hx : x ∈ visited := h.perm.mem_iff.2 (by simp)
      rw [searchBackward]
      split
      · next stop hstop =>
        rcases backwardOver_inl hstop with rfl | ⟨rfl, hv⟩
        · trivial
        · exact .head (hl.mem_incoming.1 hv).1 (h.reaches x hx)
      · next visited' found budget' hgo =>
        obtain ⟨more, rfl, rfl, hnodup, hmore, hnot, hall⟩ := backwardOver_inr hgo h.nodup
        refine @ih _ _ (x :: opened) _ ?_ (by rw [List.length_cons]; omega)
        simpa using h.visit hl hnodup hmore hnot hall

theorem visiting_start {u v : Nat} (hu : u < d.vertices.length) (huv : u ≠ v) :
    Visiting d u v [u] [] [u] where
  source := List.mem_singleton_self u
  target := by simp [huv.symm]
  nodup := by simp
  reaches := by simp [Reaches, Relation.ReflTransGen.refl]
  lt_length := by simp [hu]
  perm := .refl _
  closed := by simp

/-- **The backward search** from `u` for `v` on the level of `u`: a cycle is one, and the vertices
it gives are those that reach `u` on its level. -/
theorem searchBackward_spec (hl : d.Leveled) {u v : Nat} (hu : u < d.vertices.length) (huv : u ≠ v)
    (budget : Nat) :
    (d.searchBackward v (d.vertices.length + 1) [u] [u] budget).Sound d u v :=
  searchBackward_sound hl (visiting_start hu huv) (by simp)

/-! ### Forward -/

namespace Draft

variable {β : Type}

theorem lookup_filter_ne {i k : Nat} (h : i ≠ k) (m : List (Nat × β)) :
    (m.filter (·.1 ≠ k)).lookup i = m.lookup i := by
  induction m with
  | nil => rfl
  | cons e m ih =>
    obtain ⟨j, b⟩ := e
    by_cases hj : j = k
    · have hij : (i == j) = false := by simp [hj, h]
      rw [List.filter_cons_of_neg (by simp [hj]), ih, List.lookup_cons, hij]
    · rw [List.filter_cons_of_pos (by simp [hj]), List.lookup_cons, List.lookup_cons, ih]

@[simp] theorem lookup_set_self (k : Nat) (b : β) (m : List (Nat × β)) :
    (set k b m).lookup k = some b := by
  simp [set]

theorem lookup_set_ne {i k : Nat} (h : i ≠ k) (b : β) (m : List (Nat × β)) :
    (set k b m).lookup i = m.lookup i := by
  have hik : (i == k) = false := by simp [h]
  rw [set, List.lookup_cons, hik, ← lookup_filter_ne h m]

/-- The draft with `y` on a new level, where it knows `x` alone. -/
def lift (t : Draft) (x y level : Nat) : Draft :=
  ⟨set y level t.levels, set y [x] t.incoming⟩

/-- The draft where `y` knows `x`, besides those it knew. -/
def note (t : Draft) (d : LevelGraph α) (x y : Nat) : Draft :=
  ⟨t.levels, set y (if (t.incomingAt d y).contains x then t.incomingAt d y
    else t.incomingAt d y ++ [x]) t.incoming⟩

end Draft

theorem forwardOver_cons (d : LevelGraph α) (backward : List Nat) (x level y : Nat) (ys : List Nat)
    (t : Draft) (raised : List Nat) :
    forwardOver d backward x level (y :: ys) t raised =
      if backward.contains y then none
      else if t.levelAt d y < level then
        forwardOver d backward x level ys (t.lift x y level) (y :: raised)
      else if t.levelAt d y = level then
        forwardOver d backward x level ys (t.note d x y) raised
      else forwardOver d backward x level ys t raised := rfl

/-- What a draft holds when the edges in `Over` have been gone over: the raised vertices are on the
new level, and every vertex knows its predecessors on its level as far as they were met. -/
structure Drafted (d : LevelGraph α) (backward : List Nat) (v level : Nat) (Over : Nat → Nat → Prop)
    (t : Draft) (raised : List Nat) : Prop where
  levelAt_raised : ∀ {i : Nat}, i ∈ raised → t.levelAt d i = level
  levelAt_other : ∀ {i : Nat}, i ∉ raised → t.levelAt d i = d.levelAt i
  mem_incoming : ∀ {x y : Nat}, x ∈ t.incomingAt d y ↔
    y ∉ raised ∧ x ∈ d.incomingAt y ∨ Over x y ∧ t.levelAt d y = level
  passed : ∀ {x y : Nat}, Over x y → d.Edge x y ∧ y ∉ backward ∧ level ≤ t.levelAt d y
  low : ∀ {i : Nat}, i ∈ raised → d.levelAt i < level
  nodup : raised.Nodup
  reaches : ∀ {i : Nat}, i ∈ raised → d.Reaches v i

namespace Drafted

variable {backward raised : List Nat} {v level : Nat} {Over : Nat → Nat → Prop} {t : Draft}

/-- An edge to a lower vertex raises it. -/
theorem raise (h : Drafted d backward v level Over t raised) {x y : Nat} (hx : x ∈ raised)
    (he : d.Edge x y) (hy : y ∉ backward) (hlow : t.levelAt d y < level) :
    Drafted d backward v level (fun a b => Over a b ∨ a = x ∧ b = y)
      (t.lift x y level) (y :: raised) := by
  have hyr : y ∉ raised := fun hyr => by rw [h.levelAt_raised hyr] at hlow; omega
  have hself : (t.lift x y level).levelAt d y = level := by
    simp [Draft.lift, Draft.levelAt]
  have hother : ∀ {i}, i ≠ y → (t.lift x y level).levelAt d i = t.levelAt d i := by
    intro i hi
    simp [Draft.lift, Draft.levelAt, Draft.lookup_set_ne hi]
  refine
    { levelAt_raised := ?_
      levelAt_other := ?_
      mem_incoming := ?_
      passed := ?_
      low := ?_
      nodup := List.nodup_cons.2 ⟨hyr, h.nodup⟩
      reaches := ?_ }
  · intro i hi
    by_cases hiy : i = y
    · rw [hiy, hself]
    · rw [hother hiy]
      exact h.levelAt_raised ((List.mem_cons.1 hi).resolve_left hiy)
  · intro i hi
    rw [List.mem_cons, not_or] at hi
    rw [hother hi.1]
    exact h.levelAt_other hi.2
  · intro a b
    by_cases hb : b = y
    · -- Nothing has been gone over that leads to `y`, or it would not be low.
      subst hb
      have hover : ∀ a, ¬ Over a b := fun a ha => by have := (h.passed ha).2.2; omega
      rw [hself]
      simp [Draft.lift, Draft.incomingAt, hover a]
    · rw [hother hb]
      simp only [Draft.lift, Draft.incomingAt, Draft.lookup_set_ne hb, List.mem_cons, hb, false_or,
        and_false, or_false]
      exact h.mem_incoming
  · rintro a b (hab | ⟨rfl, rfl⟩)
    · by_cases hb : b = y
      · subst hb
        obtain ⟨hedge, hback, -⟩ := h.passed hab
        exact ⟨hedge, hback, hself.ge⟩
      · rw [hother hb]
        exact h.passed hab
    · exact ⟨he, hy, hself.ge⟩
  · intro i hi
    rcases List.mem_cons.1 hi with rfl | hi
    · rw [← h.levelAt_other hyr]
      exact hlow
    · exact h.low hi
  · intro i hi
    rcases List.mem_cons.1 hi with rfl | hi
    · exact (h.reaches hx).tail he
    · exact h.reaches hi

/-- An edge to a vertex on the new level makes its source known there. -/
theorem meet (h : Drafted d backward v level Over t raised) {x y : Nat} (he : d.Edge x y)
    (hy : y ∉ backward) (hlevel : t.levelAt d y = level) :
    Drafted d backward v level (fun a b => Over a b ∨ a = x ∧ b = y) (t.note d x y) raised where
  levelAt_raised := h.levelAt_raised
  levelAt_other := h.levelAt_other
  mem_incoming := by
    intro a b
    show a ∈ _ ↔
      b ∉ raised ∧ a ∈ d.incomingAt b ∨ (Over a b ∨ a = x ∧ b = y) ∧ t.levelAt d b = level
    by_cases hb : b = y
    · subst hb
      have hmem : a ∈ (if (t.incomingAt d b).contains x then t.incomingAt d b
          else t.incomingAt d b ++ [x]) ↔ a ∈ t.incomingAt d b ∨ a = x := by
        split
        · next hx =>
          have hx : x ∈ t.incomingAt d b := by simpa using hx
          exact ⟨.inl, fun ha => ha.elim id fun ha => ha ▸ hx⟩
        · simp
      rw [Draft.note, Draft.incomingAt, Draft.lookup_set_self, Option.getD_some, hmem,
        h.mem_incoming]
      simp [hlevel, or_assoc]
    · rw [Draft.note, Draft.incomingAt, Draft.lookup_set_ne hb, ← Draft.incomingAt, h.mem_incoming]
      simp [hb]
  passed := by
    rintro a b (hab | ⟨rfl, rfl⟩)
    · exact h.passed hab
    · exact ⟨he, hy, hlevel.ge⟩
  low := h.low
  nodup := h.nodup
  reaches := h.reaches

/-- An edge to a higher vertex changes nothing. -/
theorem pass (h : Drafted d backward v level Over t raised) {x y : Nat} (he : d.Edge x y)
    (hy : y ∉ backward) (hhigh : level < t.levelAt d y) :
    Drafted d backward v level (fun a b => Over a b ∨ a = x ∧ b = y) t raised where
  levelAt_raised := h.levelAt_raised
  levelAt_other := h.levelAt_other
  mem_incoming := by
    intro a b
    rw [h.mem_incoming]
    refine or_congr_right ⟨fun hab => ⟨.inl hab.1, hab.2⟩, ?_⟩
    rintro ⟨hab | ⟨rfl, rfl⟩, hb⟩
    · exact ⟨hab, hb⟩
    · omega
  passed := by
    rintro a b (hab | ⟨rfl, rfl⟩)
    · exact h.passed hab
    · exact ⟨he, hy, hhigh.le⟩
  low := h.low
  nodup := h.nodup
  reaches := h.reaches

theorem congr (h : Drafted d backward v level Over t raised) {Over' : Nat → Nat → Prop}
    {raised' : List Nat} (ho : ∀ {x y}, Over' x y ↔ Over x y) (hp : raised'.Perm raised) :
    Drafted d backward v level Over' t raised' where
  levelAt_raised := fun hi => h.levelAt_raised (hp.mem_iff.1 hi)
  levelAt_other := fun hi => h.levelAt_other fun hi' => hi (hp.mem_iff.2 hi')
  mem_incoming := by
    intro x y
    rw [h.mem_incoming, ho, hp.mem_iff]
  passed := fun hxy => h.passed (ho.1 hxy)
  low := fun hi => h.low (hp.mem_iff.1 hi)
  nodup := hp.nodup_iff.2 h.nodup
  reaches := fun hi => h.reaches (hp.mem_iff.1 hi)

/-- Going over the edges of a raised vertex. -/
theorem forwardOver_some (h : Drafted d backward v level Over t raised) {x : Nat} (hx : x ∈ raised)
    {ys : List Nat} (hys : ∀ y ∈ ys, d.Edge x y) {found found' : List Nat} {t' : Draft}
    (hgo : forwardOver d backward x level ys t found = some (t', found')) :
    ∃ more, found' = more ++ found ∧
      Drafted d backward v level (fun a b => Over a b ∨ a = x ∧ b ∈ ys) t' (more ++ raised) := by
  induction ys generalizing t found raised Over with
  | nil =>
    cases hgo
    exact ⟨[], rfl, h.congr (by simp) (.refl _)⟩
  | cons y ys ih =>
    obtain ⟨he, hys⟩ := List.forall_mem_cons.1 hys
    have hover : ∀ {a b}, Over a b ∨ a = x ∧ b ∈ y :: ys ↔
        (Over a b ∨ a = x ∧ b = y) ∨ a = x ∧ b ∈ ys := by
      intro a b
      rw [List.mem_cons, and_or_left, or_assoc]
    rw [forwardOver_cons] at hgo
    split_ifs at hgo with hb hlt heq
    · have hy : y ∉ backward := by simpa using hb
      obtain ⟨more, rfl, hd⟩ := ih (h.raise hx he hy hlt) (List.mem_cons_of_mem y hx) hys hgo
      exact ⟨more ++ [y], by simp, hd.congr hover (by simp)⟩
    · have hy : y ∉ backward := by simpa using hb
      obtain ⟨more, rfl, hd⟩ := ih (h.meet he hy heq) hx hys hgo
      exact ⟨more, rfl, hd.congr hover (.refl _)⟩
    · have hy : y ∉ backward := by simpa using hb
      obtain ⟨more, rfl, hd⟩ := ih (h.pass he hy (by omega)) hx hys hgo
      exact ⟨more, rfl, hd.congr hover (.refl _)⟩

/-- Going over all edges of a pending vertex, in any order, opens it. -/
theorem opens {opened pending : List Nat} {x : Nat}
    (h : Drafted d backward v level (fun x y => x ∈ opened ∧ d.Edge x y) t
      (x :: pending ++ opened)) {ys found : List Nat} (hys : ys.Perm (d.outgoingAt x)) {t' : Draft}
    (hgo : forwardOver d backward x level ys t [] = some (t', found)) :
    Drafted d backward v level (fun a b => a ∈ x :: opened ∧ d.Edge a b) t'
      (found ++ pending ++ x :: opened) := by
  obtain ⟨more, rfl, hd⟩ :=
    h.forwardOver_some List.mem_cons_self (fun _ hy => hys.mem_iff.1 hy) hgo
  refine hd.congr ?_ ?_
  · intro a b
    rw [List.mem_cons, hys.mem_iff]
    constructor
    · rintro ⟨rfl | ha, hab⟩
      · exact .inr ⟨rfl, hab⟩
      · exact .inl ⟨ha, hab⟩
    · rintro (⟨ha, hab⟩ | ⟨rfl, hab⟩)
      · exact ⟨.inr ha, hab⟩
      · exact ⟨.inl rfl, hab⟩
  · rw [List.append_nil, List.append_assoc]
    exact List.perm_middle.append_left more

end Drafted

theorem forwardOver_none {backward : List Nat} {x level : Nat} {ys : List Nat} {t : Draft}
    {found : List Nat} (h : forwardOver d backward x level ys t found = none) :
    ∃ y ∈ ys, y ∈ backward := by
  induction ys generalizing t found with
  | nil => cases h
  | cons y ys ih =>
    rw [forwardOver_cons] at h
    split_ifs at h with hb
    · exact ⟨y, List.mem_cons_self, by simpa using hb⟩
    all_goals
      obtain ⟨y', hy', hb'⟩ := ih h
      exact ⟨y', List.mem_cons_of_mem y hy', hb'⟩

/-- The meaning of what a forward search from `v` gives: it ran into the backward set, or it has
gone over all edges of the vertices that it raised. -/
def ForwardSound (d : LevelGraph α) (backward : List Nat) (v level : Nat) : Option Draft → Prop
  | none => ∃ y ∈ backward, d.Reaches v y
  | some t => ∃ raised, v ∈ raised ∧
      Drafted d backward v level (fun x y => x ∈ raised ∧ d.Edge x y) t raised

theorem searchForward_sound (hl : d.Leveled) {backward opened pending : List Nat}
    {v level bound : Nat} {t : Draft} (hv : v < d.vertices.length) (hm : v ∈ pending ++ opened)
    (h : Drafted d backward v level (fun x y => x ∈ opened ∧ d.Edge x y) t (pending ++ opened))
    (hb : d.vertices.length + 1 ≤ bound + opened.length) :
    ForwardSound d backward v level (searchForward d backward bound pending t) := by
  induction bound generalizing opened pending t with
  | zero =>
    have hlen := length_le_of_lt h.nodup fun x hx => hl.reaches_lt_length hv (h.reaches hx)
    rw [List.length_append] at hlen
    omega
  | succ bound ih =>
    cases pending with
    | nil =>
      rw [searchForward]
      exact ⟨opened, hm, h⟩
    | cons x pending =>
      have hx : x ∈ x :: pending ++ opened := List.mem_cons_self
      rw [searchForward, h.levelAt_raised hx]
      split
      · next hnone =>
        obtain ⟨y, hy, hback⟩ := forwardOver_none hnone
        exact ⟨y, hback, (h.reaches hx).tail hy⟩
      · next t' found hsome =>
        refine ih ?_ (h.opens (.refl _) hsome) (by rw [List.length_cons]; omega)
        rcases List.mem_append.1 hm with hm | hm
        · rcases List.mem_cons.1 hm with rfl | hm
          · simp
          · simp [hm]
        · simp [hm]

/-- The draft of a forward search that has gone over no edges. -/
theorem drafted_start (backward : List Nat) {v level : Nat} (hlow : d.levelAt v < level) :
    Drafted d backward v level (fun x y => x ∈ [] ∧ d.Edge x y) ⟨[(v, level)], [(v, [])]⟩ [v] := by
  have hother : ∀ {i}, i ≠ v → (Draft.mk [(v, level)] [(v, [])]).levelAt d i = d.levelAt i := by
    intro i hi
    have hiv : (i == v) = false := by simp [hi]
    simp [Draft.levelAt, List.lookup_cons, hiv]
  refine
    { levelAt_raised := ?_
      levelAt_other := fun hi => hother (by simpa using hi)
      mem_incoming := ?_
      passed := by simp
      low := by simp [hlow]
      nodup := by simp
      reaches := by simp [Reaches, Relation.ReflTransGen.refl] }
  · intro i hi
    rw [show i = v by simpa using hi]
    simp [Draft.levelAt]
  · intro x y
    by_cases hy : y = v
    · simp [Draft.incomingAt, hy]
    · have hyv : (y == v) = false := by simp [hy]
      simp [Draft.incomingAt, List.lookup_cons, hyv, hy]

/-- **The forward search** that raises `v` to a level above its own. -/
theorem searchForward_spec (hl : d.Leveled) (backward : List Nat) {v level : Nat}
    (hv : v < d.vertices.length) (hlow : d.levelAt v < level) :
    ForwardSound d backward v level
      (searchForward d backward (d.vertices.length + 1) [v] ⟨[(v, level)], [(v, [])]⟩) :=
  searchForward_sound hl hv (by simp) (drafted_start backward hlow) (by simp)

/-- A search that ended without running into the backward set met nothing that reaches `u`, if all
that reaches `u` from outside that set is below the new level. -/
theorem Drafted.not_reaches {backward raised : List Nat} {u v level : Nat} {t : Draft}
    (h : Drafted d backward v level (fun x y => x ∈ raised ∧ d.Edge x y) t raised) (hv : v ∈ raised)
    (huv : u ≠ v) (hu : u ∈ backward)
    (hlow : ∀ x, d.Reaches x u → x ∉ backward → d.levelAt x < level) : ¬ d.Reaches v u := by
  intro hreach
  -- Along a path to `u` every vertex is low, so it is raised and its edges are gone over.
  have hraised : ∀ x, d.Reaches v x → d.Reaches x u → x ∈ raised := by
    intro x hx
    induction hx with
    | refl => exact fun _ => hv
    | @tail x y _ he ih =>
      intro hy
      obtain ⟨-, hback, hle⟩ := h.passed ⟨ih (.head he hy), he⟩
      by_contra hn
      rw [h.levelAt_other hn] at hle
      have := hlow y hy hback
      omega
  rcases Relation.ReflTransGen.cases_tail hreach with heq | ⟨x, hx, he⟩
  · exact huv heq
  · exact (h.passed ⟨hraised x hx (.single he), he⟩).2.1 hu

end Mixfix.LevelGraph
