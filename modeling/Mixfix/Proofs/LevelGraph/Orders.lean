import Mixfix.Proofs.LevelGraph.Enumeration

/-!
# Insertions do not depend on the order of sets

Two runs of the same calls may go through the sets of their graphs in different orders.  They accept
the same edges, and after every call their graphs have the same vertices on the same levels, with
the same edges and the same predecessors.  The run of the lists as they stand is one of them.

* `LevelGraph.Agrees`: graphs that differ in the order of their sets alone.
* `LevelGraph.Run`: the answers and the graphs of some calls, under any order.
* `LevelGraph.Agrees.connects`: connecting two vertices keeps graphs in agreement.
* `LevelGraph.run_agrees`: so do any calls.
-/

namespace Mixfix.LevelGraph

open Relation

variable {α : Type} {d d' : LevelGraph α}

/-! ### Graphs that agree -/

/-- The graphs have the same vertices on the same levels, and the same sets in some order. -/
structure Agrees (d d' : LevelGraph α) : Prop where
  labels : d.vertices.map (·.label) = d'.vertices.map (·.label)
  edgeCount : d.edgeCount = d'.edgeCount
  levelAt : ∀ i, d.levelAt i = d'.levelAt i
  outgoingAt : ∀ i, (d.outgoingAt i).Perm (d'.outgoingAt i)
  incomingAt : ∀ i, (d.incomingAt i).Perm (d'.incomingAt i)

namespace Agrees

theorem refl (d : LevelGraph α) : Agrees d d :=
  ⟨rfl, rfl, fun _ => rfl, fun _ => .refl _, fun _ => .refl _⟩

theorem length_eq (h : Agrees d d') : d.vertices.length = d'.vertices.length := by
  simpa using congrArg List.length h.labels

theorem edge (h : Agrees d d') : d.Edge = d'.Edge := by
  funext i j
  exact propext (h.outgoingAt i).mem_iff

theorem reaches (h : Agrees d d') : d.Reaches = d'.Reaches := by
  unfold Reaches
  rw [h.edge]

theorem crest (h : Agrees d d') (budget u : Nat) : d.crest budget u = d'.crest budget u := by
  have harcs : d.arcs u = d'.arcs u := by
    unfold arcs
    simp only [h.edge, h.reaches, h.levelAt]
  unfold LevelGraph.crest Spends
  rw [harcs, h.levelAt]

/-- On proper graphs the levels and the edges say what the sets are. -/
theorem of_edge (hd : d.Proper) (hd' : d'.Proper)
    (labels : d.vertices.map (·.label) = d'.vertices.map (·.label))
    (edgeCount : d.edgeCount = d'.edgeCount) (levelAt : ∀ i, d.levelAt i = d'.levelAt i)
    (edge : ∀ i j, d.Edge i j ↔ d'.Edge i j) : Agrees d d' where
  labels := labels
  edgeCount := edgeCount
  levelAt := levelAt
  outgoingAt := fun i => (List.perm_ext_iff_of_nodup (hd.outgoing i) (hd'.outgoing i)).2 (edge i)
  incomingAt := by
    intro j
    refine (List.perm_ext_iff_of_nodup (hd.incoming j) (hd'.incoming j)).2 fun i => ?_
    rw [hd.leveled.mem_incoming, hd'.leveled.mem_incoming, edge, levelAt, levelAt]

end Agrees

/-! ### Linking and new vertices -/

section

variable {u v : Nat}

theorem outgoingAt_link (hu : u < d.vertices.length) (i : Nat) :
    (d.link u v).outgoingAt i =
      if i = u then d.outgoingAt i ++ [v] else d.outgoingAt i := by
  rw [outgoingAt, outgoingAt, link, List.getElem?_mapIdx]
  by_cases hi : i = u
  · subst hi
    rw [List.getElem?_eq_getElem hu, if_pos rfl]
    simp only [Option.map_some, Option.elim_some]
    split_ifs <;> rfl
  · rw [if_neg hi]
    cases d.vertices[i]? with
    | none => rfl
    | some x =>
      simp only [Option.map_some, Option.elim_some]
      split_ifs <;> rfl

theorem incomingAt_link (i : Nat) :
    (d.link u v).incomingAt i = d.incomingAt i ∨
      u ∉ d.incomingAt i ∧ (d.link u v).incomingAt i = d.incomingAt i ++ [u] := by
  rw [incomingAt, incomingAt, link, List.getElem?_mapIdx]
  cases d.vertices[i]? with
  | none => exact .inl rfl
  | some x =>
    simp only [Option.map_some, Option.elim_some]
    split_ifs <;> grind

theorem Proper.link (hd : d.Proper) (hu : u < d.vertices.length) (hv : v < d.vertices.length)
    (he : ¬ d.Edge u v) (hle : d.levelAt u ≤ d.levelAt v) : (d.link u v).Proper where
  leveled := hd.leveled.link hu hv hle
  outgoing := by
    intro i
    rw [outgoingAt_link hu]
    split
    · next hi =>
      subst hi
      exact List.nodup_append.2 ⟨hd.outgoing i, List.nodup_singleton v,
        fun a ha b hb hab => he (List.mem_singleton.1 hb ▸ hab ▸ ha)⟩
    · exact hd.outgoing i
  incoming := by
    intro i
    rcases incomingAt_link (d := d) (u := u) (v := v) i with heq | ⟨hnot, heq⟩
    · rw [heq]
      exact hd.incoming i
    · rw [heq]
      exact List.nodup_append.2 ⟨hd.incoming i, List.nodup_singleton u,
        fun a ha b hb hab => hnot (List.mem_singleton.1 hb ▸ hab ▸ ha)⟩

theorem Agrees.link (h : Agrees d d') (hd : d.Proper) (hd' : d'.Proper)
    (hu : u < d.vertices.length) (hv : v < d.vertices.length) (he : ¬ d.Edge u v)
    (hle : d.levelAt u ≤ d.levelAt v) : Agrees (d.link u v) (d'.link u v) := by
  have hu' := hu.trans_eq h.length_eq
  refine .of_edge (hd.link hu hv he hle) (hd'.link hu' (hv.trans_eq h.length_eq) ?_ ?_) ?_ ?_ ?_ ?_
  · rw [← h.edge]
    exact he
  · rw [← h.levelAt, ← h.levelAt]
    exact hle
  · rw [labels_link, labels_link, h.labels]
  · exact congrArg (· + 1) h.edgeCount
  · intro i
    rw [levelAt_link, levelAt_link, h.levelAt]
  · intro i j
    rw [edge_link hu, edge_link hu', h.edge]

end

section

variable {labels : List α}

theorem length_withFresh (d : LevelGraph α) (labels : List α) :
    (d.withFresh labels).vertices.length = d.vertices.length + labels.length := by
  simp [LevelGraph.withFresh]

theorem Proper.withFresh (hd : d.Proper) (labels : List α) : (d.withFresh labels).Proper where
  leveled := hd.leveled.withFresh labels
  outgoing := by
    intro i
    rw [outgoingAt_withFresh]
    exact hd.outgoing i
  incoming := by
    intro i
    rw [incomingAt_withFresh]
    exact hd.incoming i

theorem Agrees.withFresh (h : Agrees d d') (labels : List α) :
    Agrees (d.withFresh labels) (d'.withFresh labels) where
  labels := by simp [LevelGraph.withFresh, h.labels]
  edgeCount := h.edgeCount
  levelAt := by
    intro i
    by_cases hi : i < d.vertices.length
    · rw [levelAt_withFresh hi, levelAt_withFresh (hi.trans_eq h.length_eq), h.levelAt]
    · have hi := Nat.le_of_not_lt hi
      rw [LevelGraph.levelAt, LevelGraph.levelAt, LevelGraph.withFresh, LevelGraph.withFresh,
        List.getElem?_append_right hi, List.getElem?_append_right (h.length_eq ▸ hi), h.length_eq]
  outgoingAt := by
    intro i
    rw [outgoingAt_withFresh, outgoingAt_withFresh]
    exact h.outgoingAt i
  incomingAt := by
    intro i
    rw [incomingAt_withFresh, incomingAt_withFresh]
    exact h.incomingAt i

end

section

variable [DecidableEq α]

/-- Adding a vertex gives it the same number in graphs that agree, and adds it to all of them or to
none. -/
theorem exists_withFresh (d : LevelGraph α) (a : α) : ∃ labels, ∀ d', Agrees d d' →
    (d'.addVertex a).1 = (d.addVertex a).1 ∧ (d'.addVertex a).2 = d'.withFresh labels ∧
      (d'.addVertex a).1 < (d'.withFresh labels).vertices.length := by
  cases ha : d.indexOf? a with
  | some i =>
    refine ⟨[], fun d' h => ?_⟩
    have ha' : d'.indexOf? a = some i := (indexOf?_congr h.labels.symm a).trans ha
    have hsame : d'.withFresh [] = d' := by simp [LevelGraph.withFresh]
    rw [hsame]
    simp only [addVertex, ha, ha']
    exact ⟨trivial, trivial, lt_length_of_indexOf? ha'⟩
  | none =>
    refine ⟨[a], fun d' h => ?_⟩
    have ha' : d'.indexOf? a = none := (indexOf?_congr h.labels.symm a).trans ha
    simp only [addVertex, ha, ha']
    exact ⟨h.length_eq.symm, rfl, by simp [LevelGraph.withFresh]⟩

/-- So does adding two of them. -/
theorem exists_ends (d : LevelGraph α) (a b : α) : ∃ labels u v, ∀ {d₀ d₁ d₂ u' v'}, Agrees d d₀ →
    d₀.addVertex a = (u', d₁) → d₁.addVertex b = (v', d₂) →
      u' = u ∧ v' = v ∧ d₂ = d₀.withFresh labels ∧ u < d₂.vertices.length ∧
        v < d₂.vertices.length := by
  obtain ⟨xs, hxs⟩ := d.exists_withFresh a
  obtain ⟨ys, hys⟩ := (d.withFresh xs).exists_withFresh b
  refine ⟨xs ++ ys, (d.addVertex a).1, ((d.withFresh xs).addVertex b).1, ?_⟩
  intro d₀ d₁ d₂ u' v' h h₁ h₂
  obtain ⟨hu, hd₁, hlt⟩ := hxs d₀ h
  rw [h₁] at hu hd₁ hlt
  obtain rfl : d₁ = d₀.withFresh xs := hd₁
  obtain ⟨hv, hd₂, hlt'⟩ := hys _ (h.withFresh xs)
  rw [h₂] at hv hd₂ hlt'
  obtain rfl : d₂ = (d₀.withFresh xs).withFresh ys := hd₂
  refine ⟨hu, hv, withFresh_withFresh d₀ xs ys, ?_, hv ▸ hlt'⟩
  rw [← hu, length_withFresh]
  exact Nat.lt_add_right _ hlt

end

/-! ### Connecting -/

/-- Connecting two vertices, under any order of the sets. -/
def Connects (d : LevelGraph α) (budget u v : Nat) (answer : Bool × LevelGraph α) : Prop :=
  if u = v then answer = (false, d)
  else if v ∈ d.outgoingAt u then answer = (true, d)
  else if d.levelAt u < d.levelAt v then answer = (true, d.link u v)
  else ∃ ready, d.Prepares budget u v ready ∧ answer = match ready with
    | none => (false, d)
    | some d => (true, d.link u v)

/-! ### The order of the lists -/

theorem searchesBackward_searchBackward (hl : d.Leveled) {u v bound budget : Nat}
    {visited opened pending : List Nat} (h : Visiting d u v visited opened pending)
    (hb : d.vertices.length + 1 ≤ bound + opened.length) :
    d.SearchesBackward v visited pending budget
      (d.searchBackward v bound visited pending budget) := by
  induction bound generalizing visited opened pending budget with
  | zero =>
    have hlen := length_le_of_lt h.nodup h.lt_length
    rw [h.perm.length_eq, List.length_append] at hlen
    omega
  | succ bound ih =>
    cases pending with
    | nil => exact .done
    | cons x pending =>
      rw [searchBackward]
      split
      · next stop hstop => exact .stop (.refl _) hstop
      · next visited' found budget' hgo =>
        refine .next (.refl _) hgo ?_
        obtain ⟨more, rfl, rfl, hnodup, hmore, hnot, hall⟩ := backwardOver_inr hgo h.nodup
        rw [List.append_nil]
        exact ih (h.visit hl hnodup hmore hnot hall) (by rw [List.length_cons]; omega)

theorem searchesForward_searchForward (hl : d.Leveled) {backward opened pending : List Nat}
    {v level bound : Nat} {t : Draft} (hv : v < d.vertices.length)
    (h : Drafted d backward v level (fun x y => x ∈ opened ∧ d.Edge x y) t (pending ++ opened))
    (hb : d.vertices.length + 1 ≤ bound + opened.length) :
    d.SearchesForward backward pending t (searchForward d backward bound pending t) := by
  induction bound generalizing opened pending t with
  | zero =>
    have hlen := length_le_of_lt h.nodup fun x hx => hl.reaches_lt_length hv (h.reaches hx)
    rw [List.length_append] at hlen
    omega
  | succ bound ih =>
    cases pending with
    | nil => exact .done
    | cons x pending =>
      rw [searchForward]
      split
      · next hnone => exact .stop (.refl _) hnone
      · next t' found hsome =>
        refine .next (.refl _) hsome (@ih (x :: opened) _ _ ?_ (by rw [List.length_cons]; omega))
        rw [h.levelAt_raised List.mem_cons_self] at hsome
        exact h.opens (.refl _) hsome

namespace Proper

variable {u v : Nat}

theorem raises_raise (hd : d.Proper) {level : Nat} (hv : v < d.vertices.length)
    (hlow : d.levelAt v < level) (backward : List Nat) :
    d.Raises v level backward (d.raise v level backward) := by
  have hsearch : d.SearchesForward backward [v] ⟨[(v, level)], [(v, [])]⟩
      (searchForward d backward (d.vertices.length + 1) [v] ⟨[(v, level)], [(v, [])]⟩) :=
    searchesForward_searchForward hd.leveled hv (drafted_start backward hlow) (by simp)
  rw [raise]
  cases hresult : searchForward d backward (d.vertices.length + 1) [v]
      ⟨[(v, level)], [(v, [])]⟩ with
  | none =>
    rw [hresult] at hsearch
    exact .refused hsearch
  | some t =>
    rw [hresult] at hsearch
    have ht : t.Distinct :=
      hsearch.distinct hd ⟨List.nodup_singleton v, List.nodup_singleton v, by simp⟩ rfl
    rw [Option.map_some, ← writeAll_eq_apply ht (.refl _) (.refl _)]
    exact .raised hsearch (.refl _) (.refl _)

theorem prepares_prepare (hd : d.Proper) (hu : u < d.vertices.length) (hv : v < d.vertices.length)
    (huv : u ≠ v) (hle : d.levelAt v ≤ d.levelAt u) (budget : Nat) :
    d.Prepares budget u v (d.prepare budget u v) := by
  have hsearch : d.SearchesBackward v [u] [u] budget
      (d.searchBackward v (d.vertices.length + 1) [u] [u] budget) :=
    searchesBackward_searchBackward hd.leveled (visiting_start hu huv) (by simp)
  rw [prepare]
  cases hresult : d.searchBackward v (d.vertices.length + 1) [u] [u] budget with
  | cycle =>
    rw [hresult] at hsearch
    exact .cycle hsearch
  | spent =>
    rw [hresult] at hsearch
    exact .spent hsearch (hd.raises_raise hv (Nat.lt_succ_of_le hle) [u])
  | visited backward =>
    rw [hresult] at hsearch
    dsimp only
    split
    · next hlow => exact .below hsearch hlow (hd.raises_raise hv hlow backward)
    · next hnlow => exact .level hsearch hnlow

theorem connects_connect (hd : d.Proper) (hu : u < d.vertices.length) (hv : v < d.vertices.length)
    (budget : Nat) : d.Connects budget u v (d.connect budget u v) := by
  unfold Connects connect
  simp only [List.contains_iff_mem]
  split_ifs with huv he hlt
  · rfl
  · rfl
  · rfl
  · refine ⟨_, hd.prepares_prepare hu hv huv (Nat.le_of_not_lt hlt) budget, ?_⟩
    cases d.prepare budget u v <;> rfl

end Proper

/-! ### Graphs in agreement -/

/-- Graphs that are ready for the same edge agree if the graphs agree that they were made from. -/
theorem Agrees.ready (h : Agrees d d') {u v level : Nat} {e e' : LevelGraph α}
    (hsound : PrepareSound d u v (some e)) (hsound' : PrepareSound d' u v (some e'))
    (he : e.Proper) (he' : e'.Proper) (hlifts : d.Lifts e v level) (hlifts' : d'.Lifts e' v level) :
    Agrees e e' := by
  obtain ⟨-, -, hsame, -⟩ := hsound
  obtain ⟨-, -, hsame', -⟩ := hsound'
  refine .of_edge he he' ?_ ?_ (fun i => ?_) fun i j => ?_
  · rw [hsame.labels, hsame'.labels, h.labels]
  · rw [hsame.edgeCount, hsame'.edgeCount, h.edgeCount]
  · by_cases hi : d.Reaches v i
    · rw [(hlifts i).1 hi, (hlifts' i).1 (h.reaches ▸ hi), h.levelAt]
    · rw [(hlifts i).2 hi, (hlifts' i).2 (h.reaches ▸ hi), h.levelAt]
  · rw [hsame.edge, hsame'.edge, h.edge]

/-- **Connecting** two vertices keeps graphs in agreement, whatever the orders. -/
theorem Agrees.connects (h : Agrees d d') (hd : d.Proper) (hd' : d'.Proper) {budget u v : Nat}
    (hu : u < d.vertices.length) (hv : v < d.vertices.length) {x x' : Bool × LevelGraph α}
    (hx : d.Connects budget u v x) (hx' : d'.Connects budget u v x') :
    x.1 = x'.1 ∧ x.2.Proper ∧ x'.2.Proper ∧ Agrees x.2 x'.2 := by
  have hu' := hu.trans_eq h.length_eq
  have hv' := hv.trans_eq h.length_eq
  unfold Connects at hx hx'
  simp only [← h.levelAt, ← (h.outgoingAt u).mem_iff] at hx'
  split_ifs at hx hx' with huv he hlt
  · rw [hx, hx']
    exact ⟨rfl, hd, hd', h⟩
  · rw [hx, hx']
    exact ⟨rfl, hd, hd', h⟩
  · have he' : ¬ d'.Edge u v := h.edge ▸ he
    have hle' : d'.levelAt u ≤ d'.levelAt v := by
      rw [← h.levelAt, ← h.levelAt]
      exact hlt.le
    rw [hx, hx']
    exact ⟨rfl, hd.link hu hv he hlt.le, hd'.link hu' hv' he' hle', h.link hd hd' hu hv he hlt.le⟩
  · have hle := Nat.le_of_not_lt hlt
    have hle' : d'.levelAt v ≤ d'.levelAt u := by
      rw [← h.levelAt, ← h.levelAt]
      exact hle
    obtain ⟨ready, hready, rfl⟩ := hx
    obtain ⟨ready', hready', rfl⟩ := hx'
    obtain ⟨hsound, hexact⟩ := hready.spec hd hu hv huv hle
    obtain ⟨hsound', hexact'⟩ := hready'.spec hd' hu' hv' huv hle'
    rw [← h.crest] at hexact'
    cases ready with
    | none =>
      cases ready' with
      | none => exact ⟨rfl, hd, hd', h⟩
      | some e' => exact absurd (h.reaches ▸ hsound) hsound'.1
    | some e =>
      cases ready' with
      | none => exact absurd (h.reaches ▸ hsound') hsound.1
      | some e' =>
        obtain ⟨hproper, hlifts⟩ := hexact e rfl
        obtain ⟨hproper', hlifts'⟩ := hexact' e' rfl
        have hagrees := h.ready hsound hsound' hproper hproper' hlifts hlifts'
        obtain ⟨-, -, hsame, hup⟩ := hsound
        obtain ⟨-, -, hsame', hup'⟩ := hsound'
        rw [← hsame.length_eq] at hu hv
        rw [← hsame'.length_eq] at hu' hv'
        have hnot : ¬ e.Edge u v := hsame.edge ▸ he
        exact ⟨rfl, hproper.link hu hv hnot hup,
          hproper'.link hu' hv' (hagrees.edge ▸ hnot) hup',
          hagrees.link hproper hproper' hu hv hnot hup⟩

/-! ### Calls -/

section

variable [DecidableEq α]

/-- The answers and the graphs of some calls, under any order of the sets.  Only a call that adds an
edge has an answer. -/
inductive Run : LevelGraph α → List (Call α) → List (Option Bool × LevelGraph α) → Prop where
  | nil {d : LevelGraph α} : Run d [] []
  | vertex {d : LevelGraph α} {a : α} {calls : List (Call α)}
      {trace : List (Option Bool × LevelGraph α)} : Run (d.addVertex a).2 calls trace →
      Run d (.vertex a :: calls) ((none, (d.addVertex a).2) :: trace)
  | edge {d d₁ d₂ d' : LevelGraph α} {budget : LevelGraph α → Nat} {a b : α} {u v : Nat}
      {answer : Bool} {calls : List (Call α)} {trace : List (Option Bool × LevelGraph α)} :
      d.addVertex a = (u, d₁) → d₁.addVertex b = (v, d₂) →
      d₂.Connects (budget d₂) u v (answer, d') → Run d' calls trace →
      Run d (.edge budget a b :: calls) ((some answer, d') :: trace)

/-- The answers and the graphs of some calls, with the sets in the order of their lists. -/
def trace : LevelGraph α → List (Call α) → List (Option Bool × LevelGraph α)
  | _, [] => []
  | d, .vertex a :: calls => (none, (d.addVertex a).2) :: trace (d.addVertex a).2 calls
  | d, .edge budget a b :: calls =>
    let (answer, d) := d.addEdgeWithin budget a b
    (some answer, d) :: trace d calls

/-- The call takes its budget from what graphs in agreement have in common. -/
def Call.Steady : Call α → Prop
  | .vertex _ => True
  | .edge budget _ _ => ∀ {d d' : LevelGraph α}, Agrees d d' → budget d = budget d'

omit [DecidableEq α] in
/-- The usual budget is one of these, and so is a fixed one. -/
theorem Agrees.budget (h : Agrees d d') : d.budget = d'.budget := by
  unfold LevelGraph.budget
  rw [h.edgeCount, h.length_eq]

/-- Graphs in agreement stay so along any calls. -/
theorem Agrees.run {calls : List (Call α)} (hsteady : ∀ call ∈ calls, call.Steady)
    (h : Agrees d d') (hd : d.Proper) (hd' : d'.Proper)
    {t t' : List (Option Bool × LevelGraph α)} (hrun : Run d calls t) (hrun' : Run d' calls t') :
    List.Forall₂ (fun x x' => x.1 = x'.1 ∧ Agrees x.2 x'.2) t t' := by
  induction calls generalizing d d' t t' with
  | nil =>
    cases hrun
    cases hrun'
    exact .nil
  | cons call calls ih =>
    obtain ⟨hcall, hcalls⟩ := List.forall_mem_cons.1 hsteady
    cases hrun with
    | @vertex _ a _ t hrun =>
      cases hrun' with
      | @vertex _ _ _ t' hrun' =>
        obtain ⟨labels, hadd⟩ := d.exists_withFresh a
        rw [(hadd d (.refl d)).2.1] at hrun ⊢
        rw [(hadd d' h).2.1] at hrun' ⊢
        have hfresh := h.withFresh labels
        exact .cons ⟨rfl, hfresh⟩
          (ih hcalls hfresh (hd.withFresh labels) (hd'.withFresh labels) hrun hrun')
    | @edge _ d₁ d₂ e budget a b u v answer _ t h₁ h₂ hconnects hrun =>
      cases hrun' with
      | @edge _ d₁' d₂' e' _ _ _ u' v' answer' _ t' h₁' h₂' hconnects' hrun' =>
        obtain ⟨labels, u, v, hends⟩ := d.exists_ends a b
        obtain ⟨rfl, rfl, rfl, hu, hv⟩ := hends (.refl d) h₁ h₂
        obtain ⟨rfl, rfl, rfl, -, -⟩ := hends h h₁' h₂'
        have hfresh := h.withFresh labels
        rw [← hcall hfresh] at hconnects'
        obtain ⟨hanswer, hproper, hproper', hagrees⟩ := hfresh.connects (hd.withFresh labels)
          (hd'.withFresh labels) hu hv hconnects hconnects'
        exact .cons ⟨congrArg some hanswer, hagrees⟩
          (ih hcalls hagrees hproper hproper' hrun hrun')


/-- The run with the sets in the order of their lists is a run. -/
theorem run_trace (hd : d.Proper) (calls : List (Call α)) : Run d calls (trace d calls) := by
  induction calls generalizing d with
  | nil => exact .nil
  | cons call calls ih =>
    cases call with
    | vertex a =>
      obtain ⟨labels, hadd⟩ := d.exists_withFresh a
      refine .vertex (ih ?_)
      rw [(hadd d (.refl d)).2.1]
      exact hd.withFresh labels
    | edge budget a b =>
      obtain ⟨labels, u, v, hends⟩ := d.exists_ends a b
      have h₁ : d.addVertex a = ((d.addVertex a).1, (d.addVertex a).2) := rfl
      have h₂ : (d.addVertex a).2.addVertex b =
        (((d.addVertex a).2.addVertex b).1, ((d.addVertex a).2.addVertex b).2) := rfl
      obtain ⟨hu, hv, hd₂, hult, hvlt⟩ := hends (.refl d) h₁ h₂
      have hconnects := (hd.withFresh labels).connects_connect (hd₂ ▸ hult) (hd₂ ▸ hvlt)
        (budget (d.withFresh labels))
      rw [trace, addEdgeWithin_eq rfl rfl, hu, hv, hd₂]
      rw [hu] at h₁
      rw [hv, hd₂] at h₂
      refine .edge h₁ h₂ hconnects (ih ?_)
      · exact ((Agrees.refl _).connects (hd.withFresh labels) (hd.withFresh labels) (hd₂ ▸ hult)
          (hd₂ ▸ hvlt) hconnects hconnects).2.1

theorem proper_empty : ({} : LevelGraph α).Proper where
  leveled := valid_empty.leveled
  outgoing := fun _ => List.nodup_nil
  incoming := fun _ => List.nodup_nil

/-- **Insertions do not depend on the order of sets.** Take any calls, with budgets that do not
depend on it either, and any two runs of them that go through the predecessors and successors of
vertices, and through the changes of drafts, in whatever orders.  Call by call they give the same
answers, and graphs with the same vertices on the same levels, the same edges and the same
predecessors on one level.  The lists as they stand give one such run. -/
theorem run_agrees {calls : List (Call α)} (hsteady : ∀ call ∈ calls, call.Steady) :
    Run {} calls (trace {} calls) ∧
      ∀ {t t' : List (Option Bool × LevelGraph α)}, Run {} calls t → Run {} calls t' →
        List.Forall₂ (fun x x' => x.1 = x'.1 ∧ Agrees x.2 x'.2) t t' :=
  ⟨run_trace proper_empty calls,
    fun hrun hrun' => (Agrees.refl _).run hsteady proper_empty proper_empty hrun hrun'⟩

end

/-! ### A fork -/

/-- Edges from `1` and from `2` to `3`, and one back to `2`. -/
def forkCalls : List (Call Nat) :=
  [.edge budget 1 3, .edge budget 2 3, .edge budget 3 2]

/-- The last search of this run comes to its target at once; that of the lists spends its budget
before. -/
theorem fork_run : Run {} forkCalls (trace {} forkCalls) := by
  refine .edge (u := 0) (v := 1) rfl rfl ?_ (.edge (u := 2) (v := 1) rfl rfl ?_
    (.edge (u := 1) (v := 2) rfl rfl ?_ .nil))
  · exact ⟨some _, .level (.next (List.Perm.refl []) rfl .done) (by decide), rfl⟩
  · exact ⟨some _, .level (.next (List.Perm.refl []) rfl .done) (by decide), rfl⟩
  · exact ⟨none, .cycle (.stop (List.Perm.swap 0 2 []) rfl), rfl⟩

theorem fork_agrees : (∀ call ∈ forkCalls, call.Steady) ∧ Run {} forkCalls (trace {} forkCalls) ∧
    List.Forall₂ (fun x x' => x.1 = x'.1 ∧ Agrees x.2 x'.2) (trace {} forkCalls)
      (trace {} forkCalls) := by
  have hsteady : ∀ call ∈ forkCalls, call.Steady := by
    simp only [forkCalls, List.forall_mem_cons, Call.Steady]
    exact ⟨Agrees.budget, Agrees.budget, Agrees.budget, by simp⟩
  exact ⟨hsteady, fork_run, (run_agrees hsteady).2 (run_agrees hsteady).1 fork_run⟩

end Mixfix.LevelGraph
