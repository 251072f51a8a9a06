import Mathlib.Data.Set.List
import Mixfix.Plan.Choice
import Mixfix.Proofs.Fixpoint
import Mixfix.Proofs.Forest
import Mixfix.Proofs.Registry.Declarations

/-!
# The classes of a read

Terminals that may be mistaken for one another are in one class, and with them all that a chain of
such terminals leads to, since not to be distinct is no equivalence.  The pairs are gone through one
by one, and each that is not distinct is joined in a forest over the numbers of the terminals.  Then
two terminals have one root exactly if a chain leads from one to the other; and the root of a class
is its smallest number, so classes in the order of their roots are in the order of their smallest
members.

* `Plan.Linked`: what a chain of terminals leads to.
* `Plan.exists_link`, `Plan.exists_foldlM_link`: one pair, and all of them.
* `Plan.Components`: classes that are what chains link, in order.
* `Plan.components_classes`: the classes of a read are.
* `Plan.classes_exact`: grouping comes to its end, and what the classes are.
-/

namespace Mixfix.Plan

open Ascending Relation

variable {r : Registry} {ts : List Handle} {t u : Handle} {i j : Nat}

/-- A chain of listed terminals leads from one to the other, each not distinct from the next. -/
def Linked (r : Registry) (ts : List Handle) : Handle → Handle → Prop :=
  ReflTransGen fun t u => t ∈ ts ∧ u ∈ ts ∧ r.distinct t u = false

theorem distinct_eq_false_symm (h : r.distinct t u = false) : r.distinct u t = false := by
  rw [← Bool.not_eq_true] at h ⊢
  exact fun h' => h (Registry.distinct_symm h')

theorem Linked.symm (h : Linked r ts t u) : Linked r ts u t := by
  induction h with
  | refl => exact .refl
  | tail _ hstep ih =>
    obtain ⟨ht, hu, hclose⟩ := hstep
    exact ReflTransGen.head ⟨hu, ht, distinct_eq_false_symm hclose⟩ ih

theorem Linked.mem (h : Linked r ts t u) (ht : t ∈ ts) : u ∈ ts := by
  induction h with
  | refl => exact ht
  | tail _ hstep _ => exact hstep.2.1

/-! ### Terminals by number -/

/-- The numbers are those of terminals that are not distinct. -/
def Close (r : Registry) (ts : List Handle) (i j : Nat) : Prop :=
  ∃ t u, ts[i]? = some t ∧ ts[j]? = some u ∧ r.distinct t u = false

theorem mem_pairs {n : Nat} : (i, j) ∈ pairs n ↔ i < j ∧ j < n := by
  simp only [pairs, List.mem_flatMap, List.mem_map, List.mem_filter, List.mem_range,
    decide_eq_true_eq, Prod.mk.injEq]
  constructor
  · rintro ⟨k, -, l, ⟨hl, hkl⟩, rfl, rfl⟩
    exact ⟨hkl, hl⟩
  · rintro ⟨hij, hj⟩
    exact ⟨i, hij.trans hj, j, ⟨hj, hij⟩, rfl, rfl⟩

theorem eq_of_getElem? (h : ts.Nodup) (hi : ts[i]? = some t) (hj : ts[j]? = some t) : i = j := by
  obtain ⟨hi, rfl⟩ := List.getElem?_eq_some_iff.1 hi
  obtain ⟨hj, heq⟩ := List.getElem?_eq_some_iff.1 hj
  exact (h.getElem_inj_iff.1 heq).symm

theorem lt_of_getElem? (h : Sorted ts) (hi : ts[i]? = some t) (hj : ts[j]? = some u)
    (hij : i < j) : t < u := by
  obtain ⟨hi', rfl⟩ := List.getElem?_eq_some_iff.1 hi
  obtain ⟨hj', rfl⟩ := List.getElem?_eq_some_iff.1 hj
  exact List.pairwise_iff_getElem.1 h i j hi' hj' hij

/-- Steps between the pairs lead from a number to another as chains do between the terminals. -/
theorem eqvGen_iff_linked (h : ts.Nodup) (hi : ts[i]? = some t) (hj : ts[j]? = some u) :
    EqvGen (fun k l => (k, l) ∈ pairs ts.length ∧ Close r ts k l) i j ↔ Linked r ts t u := by
  constructor
  · intro hlinked
    suffices i = j ∨ ∃ t u, ts[i]? = some t ∧ ts[j]? = some u ∧ Linked r ts t u by
      rcases this with rfl | ⟨t', u', hi', hj', hlinked⟩
      · cases hi.symm.trans hj
        exact .refl
      · cases hi.symm.trans hi'
        cases hj.symm.trans hj'
        exact hlinked
    clear hi hj
    induction hlinked with
    | rel k l hkl =>
      obtain ⟨-, t, u, ht, hu, hclose⟩ := hkl
      exact .inr ⟨t, u, ht, hu,
        .single ⟨List.mem_of_getElem? ht, List.mem_of_getElem? hu, hclose⟩⟩
    | refl => exact .inl rfl
    | symm k l _ ih =>
      rcases ih with rfl | ⟨t, u, ht, hu, hlinked⟩
      · exact .inl rfl
      · exact .inr ⟨u, t, hu, ht, hlinked.symm⟩
    | trans k l m _ _ ih ih' =>
      rcases ih with rfl | ⟨t, u, ht, hu, hlinked⟩
      · exact ih'
      rcases ih' with rfl | ⟨u', v, hu', hv, hlinked'⟩
      · exact .inr ⟨t, u, ht, hu, hlinked⟩
      · cases hu.symm.trans hu'
        exact .inr ⟨t, v, ht, hv, hlinked.trans hlinked'⟩
  · intro hlinked
    induction hlinked generalizing j with
    | refl =>
      cases eq_of_getElem? h hi hj
      exact .refl i
    | @tail v u _ hstep ih =>
      obtain ⟨hv, -, hclose⟩ := hstep
      obtain ⟨k, hk⟩ := List.mem_iff_getElem?.1 hv
      refine .trans _ _ _ (ih hk) ?_
      have hkl := (List.getElem?_eq_some_iff.1 hk).1
      have hjl := (List.getElem?_eq_some_iff.1 hj).1
      rcases Nat.lt_trichotomy k j with hlt | rfl | hlt
      · exact .rel _ _ ⟨mem_pairs.2 ⟨hlt, hjl⟩, v, u, hk, hj, hclose⟩
      · exact .refl k
      · exact .symm _ _ (.rel _ _ ⟨mem_pairs.2 ⟨hlt, hkl⟩, u, v, hj, hk,
          distinct_eq_false_symm hclose⟩)

/-! ### Joining -/

theorem represents_congr {f : Forest} {R R' : Nat → Nat → Prop} (h : f.Represents R)
    (hR : ∀ k l, R k l ↔ R' k l) : f.Represents R' := by
  have heq : R = R' := funext fun k => funext fun l => propext (hR k l)
  exact heq ▸ h

/-- A pair that is not distinct is joined. -/
theorem exists_link {f : Forest} {R : Nat → Nat → Prop} (hf : Forest.Grown ts.length f)
    (h : f.Represents R) (hi : i < ts.length) (hj : j < ts.length) :
    ∃ f', link r ts f (i, j) = some f' ∧ Forest.Grown ts.length f' ∧
      f'.Represents fun k l => R k l ∨ (k, l) = (i, j) ∧ Close r ts k l := by
  have hti : ts[i]? = some ts[i] := List.getElem?_eq_getElem hi
  have htj : ts[j]? = some ts[j] := List.getElem?_eq_getElem hj
  simp only [link, hti, htj, Option.bind_eq_bind, Option.bind_some]
  cases hd : r.distinct ts[i] ts[j] with
  | true =>
    refine ⟨f, rfl, hf, represents_congr h fun k l => ⟨.inl, ?_⟩⟩
    rintro (hkl | ⟨heq, t, u, ht, hu, hclose⟩)
    · exact hkl
    · cases heq
      cases hti.symm.trans ht
      cases htj.symm.trans hu
      cases hd.symm.trans hclose
  | false =>
    obtain ⟨hordered, hsize⟩ := hf.ordered
    obtain ⟨f', hf', -, -, hroot⟩ := hordered.unite (hsize ▸ hi) (hsize ▸ hj)
    refine ⟨f', hf', hf.unite hi hj hf', represents_congr (h.unite hroot) fun k l => ?_⟩
    refine or_congr_right ⟨?_, fun ⟨heq, _⟩ => Prod.mk.inj heq⟩
    rintro ⟨rfl, rfl⟩
    exact ⟨rfl, _, _, hti, htj, hd⟩

/-- Joining some pairs, one by one. -/
theorem exists_foldlM_link {ps : List (Nat × Nat)} {f : Forest} {R : Nat → Nat → Prop}
    (hf : Forest.Grown ts.length f) (h : f.Represents R)
    (hps : ∀ p ∈ ps, p.1 < ts.length ∧ p.2 < ts.length) :
    ∃ f', ps.foldlM (link r ts) f = some f' ∧ Forest.Grown ts.length f' ∧
      f'.Represents fun k l => R k l ∨ (k, l) ∈ ps ∧ Close r ts k l := by
  induction ps generalizing f R with
  | nil => exact ⟨f, rfl, hf, represents_congr h fun k l => by simp⟩
  | cons p ps ih =>
    obtain ⟨⟨hi, hj⟩, hps⟩ := List.forall_mem_cons.1 hps
    obtain ⟨f₁, hf₁, hgrown, h₁⟩ := exists_link (r := r) hf h hi hj
    obtain ⟨f', hf', hgrown', h'⟩ := ih hgrown h₁ hps
    rw [List.foldlM_cons, hf₁]
    refine ⟨f', hf', hgrown', represents_congr h' fun k l => ?_⟩
    rw [List.mem_cons, or_and_right, or_assoc]

/-! ### Collecting -/

/-- Every terminal under its root. -/
def byRoot (f : Forest) (ts : List Handle) : List (Nat × List Handle) :=
  ts.zipIdx.foldl (fun m c => insertAt (f.root c.2) c.1 m) []

theorem maps_byRoot {f : Forest} {k : Nat} :
    Maps (byRoot f ts) k t ↔ ∃ i, ts[i]? = some t ∧ f.root i = k := by
  rw [byRoot, maps_foldl_insertAt]
  simp only [maps_nil, or_false, Prod.exists, List.mem_zipIdx_iff_getElem?]
  constructor
  · rintro ⟨_, i, ht, hroot, rfl⟩
    exact ⟨i, ht, hroot⟩
  · rintro ⟨i, ht, hroot⟩
    exact ⟨t, i, ht, hroot, rfl⟩

theorem ordered_byRoot (f : Forest) (ts : List Handle) : Ordered (byRoot f ts) :=
  ordered_foldl_insertAt _ _ _ ordered_nil

theorem ne_nil_of_mem_insertAt {a : Nat} {b : Handle} {m : List (Nat × List Handle)}
    (h : ∀ e ∈ m, e.2 ≠ []) : ∀ e ∈ insertAt a b m, e.2 ≠ [] := by
  induction m with
  | nil => simp [insertAt]
  | cons e m ih =>
    obtain ⟨he, hm⟩ := List.forall_mem_cons.1 h
    rw [insertAt]
    split
    · exact List.forall_mem_cons.2 ⟨List.cons_ne_nil _ _, h⟩
    · split
      · exact List.forall_mem_cons.2 ⟨he, ih hm⟩
      · exact List.forall_mem_cons.2 ⟨List.ne_nil_of_mem (mem_insert.2 (.inl rfl)), hm⟩

theorem ne_nil_of_mem_byRoot {f : Forest} : ∀ e ∈ byRoot f ts, e.2 ≠ [] :=
  List.foldlRecOn (motive := fun m : List (Nat × List Handle) => ∀ e ∈ m, e.2 ≠ []) _ _
    (fun _ h => nomatch h) fun _ h _ _ => ne_nil_of_mem_insertAt h

/-- Climbs do not change roots, so it does not matter that the forest changes on the way. -/
theorem exists_foldlM_file {l : List (Handle × Nat)} {f : Forest} {n : Nat}
    (hf : Forest.Grown n f) (hl : ∀ c ∈ l, c.2 < n) (m : List (Nat × List Handle)) :
    ∃ f', l.foldlM file (f, m) =
      some (f', l.foldl (fun m c => insertAt (f.root c.2) c.1 m) m) := by
  induction l generalizing f m with
  | nil => exact ⟨f, rfl⟩
  | cons c l ih =>
    obtain ⟨hc, hl⟩ := List.forall_mem_cons.1 hl
    obtain ⟨hordered, hsize⟩ := hf.ordered
    obtain ⟨f₁, hf₁, hkeeps⟩ := hordered.find (hsize ▸ hc)
    have hstep : file (f, m) c = some (f₁, insertAt (f.root c.2) c.1 m) := by
      simp only [file, hf₁, Option.bind_eq_bind, Option.bind_some]
      rfl
    obtain ⟨f', hf'⟩ := ih (hf.find hc hf₁) hl (insertAt (f.root c.2) c.1 m)
    simp only [hkeeps.root] at hf'
    rw [List.foldlM_cons, hstep]
    exact ⟨f', hf'⟩

/-- Grouping comes to its end: every terminal is under its root in a forest whose groups the chains
make. -/
theorem exists_group? (r : Registry) (ts : List Handle) :
    ∃ f : Forest, group? r ts = some ((byRoot f ts).map (·.2)) ∧
      f.Represents fun k l => (k, l) ∈ pairs ts.length ∧ Close r ts k l := by
  have hpairs : ∀ p ∈ pairs ts.length, p.1 < ts.length ∧ p.2 < ts.length := fun p hp =>
    ⟨(mem_pairs.1 hp).1.trans (mem_pairs.1 hp).2, (mem_pairs.1 hp).2⟩
  obtain ⟨f, hf, hgrown, hrepresents⟩ :=
    exists_foldlM_link (r := r) .roots (Forest.represents_roots ts.length) hpairs
  have hzip : ∀ c ∈ ts.zipIdx, c.2 < ts.length := fun ⟨_, _⟩ hc =>
    (List.getElem?_eq_some_iff.1 (List.mem_zipIdx_iff_getElem?.1 hc)).1
  obtain ⟨f', hf'⟩ := exists_foldlM_file hgrown hzip []
  refine ⟨f, ?_, represents_congr hrepresents fun k l => by simp⟩
  simp only [group?, hf, hf', Option.bind_eq_bind, Option.bind_some]
  rfl

/-! ### Classes -/

/-- The classes of listed terminals: what chains link, each class ascending and the classes in the
order of their smallest members. -/
structure Components (r : Registry) (ts : List Handle) (classes : List (List Handle)) : Prop where
  sorted : ∀ cls ∈ classes, Sorted cls
  nonempty : ∀ cls ∈ classes, cls ≠ []
  cover : ∀ {t}, (∃ cls ∈ classes, t ∈ cls) ↔ t ∈ ts
  linked : ∀ {cls t}, cls ∈ classes → t ∈ cls → ∀ u, u ∈ cls ↔ Linked r ts t u
  ascending : classes.Pairwise fun c d =>
    ∃ t ∈ c, (∀ u ∈ c, t = u ∨ t < u) ∧ ∀ u ∈ d, t < u

/-- A class has what is under the same root as one of its members. -/
theorem mem_class_iff {f : Forest} {cls : List Handle} {k : Nat} (h : (k, cls) ∈ byRoot f ts) :
    u ∈ cls ↔ ∃ j, ts[j]? = some u ∧ f.root j = k := by
  rw [← maps_byRoot, ← (ordered_byRoot f ts).mem_lookup, (ordered_byRoot f ts).lookup_eq_some.2 h]
  rfl

theorem exists_mem_byRoot {f : Forest} {cls : List Handle}
    (h : cls ∈ (byRoot f ts).map (·.2)) : ∃ k, (k, cls) ∈ byRoot f ts := by
  obtain ⟨⟨k, cls⟩, he, rfl⟩ := List.mem_map.1 h
  exact ⟨k, he⟩

/-- The root of a class is the number of its smallest member. -/
theorem exists_least {f : Forest} {cls : List Handle} {k : Nat} (hts : Sorted ts)
    (h : (k, cls) ∈ byRoot f ts) :
    ∃ t ∈ cls, ts[k]? = some t ∧ ∀ u ∈ cls, t = u ∨ t < u := by
  obtain ⟨u, hu⟩ := List.exists_mem_of_ne_nil cls (ne_nil_of_mem_byRoot _ h)
  obtain ⟨i, hi, hroot⟩ := (mem_class_iff h).1 hu
  have hk : k < ts.length := (hroot ▸ f.root_le i).trans_lt (List.getElem?_eq_some_iff.1 hi).1
  have hkk : ts[k]? = some ts[k] := List.getElem?_eq_getElem hk
  refine ⟨ts[k], (mem_class_iff h).2 ⟨k, hkk, hroot ▸ f.root_root i⟩, hkk, fun v hv => ?_⟩
  obtain ⟨j, hj, hroot⟩ := (mem_class_iff h).1 hv
  rcases (hroot ▸ f.root_le j : k ≤ j).eq_or_lt with rfl | hkj
  · exact .inl (Option.some.inj (hkk.symm.trans hj))
  · exact .inr (lt_of_getElem? hts hkk hj hkj)

/-- Classes in the order of their roots are in the order of their smallest members. -/
theorem ascending_byRoot {f : Forest} (hts : Sorted ts) :
    ((byRoot f ts).map (·.2)).Pairwise fun c d =>
      ∃ t ∈ c, (∀ u ∈ c, t = u ∨ t < u) ∧ ∀ u ∈ d, t < u := by
  refine List.pairwise_map.2 ((ordered_byRoot f ts).1.imp_of_mem fun {e e'} he he' hlt => ?_)
  obtain ⟨t, ht, hk, hleast⟩ := exists_least hts he
  refine ⟨t, ht, hleast, fun v hv => ?_⟩
  obtain ⟨j, hj, hroot⟩ := (mem_class_iff he').1 hv
  exact lt_of_getElem? hts hk hj (hlt.trans_le (hroot ▸ f.root_le j))

/-- A class has what chains link with one of its members. -/
theorem mem_class_iff_linked {f : Forest} {cls : List Handle} (hts : ts.Nodup)
    (hf : f.Represents fun k l => (k, l) ∈ pairs ts.length ∧ Close r ts k l)
    (hcls : cls ∈ (byRoot f ts).map (·.2)) (ht : t ∈ cls) : u ∈ cls ↔ Linked r ts t u := by
  obtain ⟨k, he⟩ := exists_mem_byRoot hcls
  obtain ⟨i, hi, rfl⟩ := (mem_class_iff he).1 ht
  rw [mem_class_iff he]
  constructor
  · rintro ⟨j, hj, hroot⟩
    exact (eqvGen_iff_linked hts hi hj).1 ((hf i j).1 hroot.symm)
  · intro hlinked
    obtain ⟨j, hj⟩ := List.mem_iff_getElem?.1 (hlinked.mem (List.mem_of_getElem? hi))
    exact ⟨j, hj, ((hf i j).2 ((eqvGen_iff_linked hts hi hj).2 hlinked)).symm⟩

/-- The classes of ascending terminals. -/
theorem components_byRoot {f : Forest} (hts : Sorted ts)
    (hf : f.Represents fun k l => (k, l) ∈ pairs ts.length ∧ Close r ts k l) :
    Components r ts ((byRoot f ts).map (·.2)) where
  sorted := fun cls hcls =>
    have ⟨_, he⟩ := exists_mem_byRoot hcls
    (ordered_byRoot f ts).2 _ he
  nonempty := fun cls hcls =>
    have ⟨_, he⟩ := exists_mem_byRoot hcls
    ne_nil_of_mem_byRoot _ he
  cover := by
    intro t
    constructor
    · rintro ⟨cls, hcls, ht⟩
      obtain ⟨k, he⟩ := exists_mem_byRoot hcls
      obtain ⟨i, hi, -⟩ := (mem_class_iff he).1 ht
      exact List.mem_of_getElem? hi
    · intro ht
      obtain ⟨i, hi⟩ := List.mem_iff_getElem?.1 ht
      obtain ⟨cls, he, ht⟩ := maps_byRoot.2 ⟨i, hi, rfl⟩
      exact ⟨cls, List.mem_map_of_mem he, ht⟩
  linked := fun hcls ht _ => mem_class_iff_linked hts.nodup hf hcls ht
  ascending := ascending_byRoot hts

theorem Linked.congr {ts' : List Handle} (h : ∀ {t}, t ∈ ts ↔ t ∈ ts') :
    Linked r ts = Linked r ts' := by
  unfold Linked
  simp only [h]

/-- The classes of a read are the components of its terminals. -/
theorem components_classes (r : Registry) (ts : List Handle) :
    group? r (ofList ts) = some (classes r ts) ∧ Components r ts (classes r ts) := by
  obtain ⟨f, hf, hrepresents⟩ := exists_group? r (ofList ts)
  have hclasses : classes r ts = (byRoot f (ofList ts)).map (·.2) := by
    rw [classes, hf]
    rfl
  have h := components_byRoot (sorted_ofList ts) hrepresents
  rw [hclasses]
  exact ⟨hf, h.sorted, h.nonempty, h.cover.trans mem_ofList, fun hcls ht u => by
    rw [h.linked hcls ht, Linked.congr mem_ofList], h.ascending⟩

namespace Components

variable {classes : List (List Handle)}

/-- No two classes share a terminal: those of one are linked with all of the other, and so would the
smallest member of the first be in the second. -/
theorem disjoint (h : Components r ts classes) : classes.Pairwise List.Disjoint := by
  refine h.ascending.imp_of_mem fun {c d} hc hd ⟨t, ht, _, hlt⟩ u hu hu' => ?_
  have htd : t ∈ d := (h.linked hd hu' t).2 ((h.linked hc ht u).1 hu).symm
  exact StrictTotal.irrefl t (hlt t htd)

/-- Distinct terminals are told apart one by one. -/
theorem eq_singletons (h : Components r ts classes)
    (hd : ∀ t ∈ ts, ∀ u ∈ ts, t ≠ u → r.distinct t u) : classes = (ofList ts).map ([·]) := by
  have hlinked : ∀ {t u}, Linked r ts t u → u = t := by
    intro t u hlinked
    induction hlinked with
    | refl => rfl
    | @tail v u _ hstep ih =>
      obtain ⟨hv, hu, hclose⟩ := hstep
      by_contra hne
      rw [hd v hv u hu fun heq => hne (heq ▸ ih)] at hclose
      cases hclose
  have hsingle : ∀ cls ∈ classes, cls ∈ Set.range fun t : Handle => [t] := by
    intro cls hcls
    obtain ⟨t, ht⟩ := List.exists_mem_of_ne_nil cls (h.nonempty cls hcls)
    refine ⟨t, ((h.sorted cls hcls).ext (List.pairwise_singleton _ t) fun u => ?_).symm⟩
    rw [h.linked hcls ht, List.mem_singleton]
    exact ⟨hlinked, fun heq => heq ▸ .refl⟩
  obtain ⟨heads, rfl⟩ : classes ∈ Set.range (List.map fun t : Handle => [t]) := by
    rw [Set.range_list_map]
    exact hsingle
  have hsorted : Sorted heads := by
    refine (List.pairwise_map.1 h.ascending).imp fun {t u} ⟨v, hv, _, hlt⟩ => ?_
    rw [List.mem_singleton.1 hv] at hlt
    exact hlt u List.mem_cons_self
  rw [hsorted.ext (sorted_ofList ts) fun t => ?_]
  rw [mem_ofList, ← h.cover]
  simp

end Components

/-- The members of the classes are the terminals that were to be told apart. -/
theorem exists_mem_classes : (∃ cls ∈ classes r ts, u ∈ cls) ↔ u ∈ ts :=
  (components_classes r ts).2.cover

/-- The classes of a read share no terminal. -/
theorem classes_pairwise (r : Registry) (ts : List Handle) :
    (classes r ts).Pairwise List.Disjoint :=
  (components_classes r ts).2.disjoint

/-- Every class of a read has a terminal. -/
theorem classes_ne_nil {cls : List Handle} (h : cls ∈ classes r ts) : cls ≠ [] :=
  (components_classes r ts).2.nonempty cls h

/-- Distinct terminals are told apart one by one. -/
theorem classes_of_distinct (h : ∀ t ∈ ts, ∀ u ∈ ts, t ≠ u → r.distinct t u) :
    classes r ts = (ofList ts).map ([·]) :=
  (components_classes r ts).2.eq_singletons h

/-- **The classes of a read** are the connected components of its terminals.  In every forest that
climbs and joins lead to, a climb from any number comes to its end and leaves the groups as they
are, and so grouping the terminals comes to its end.  The classes then are no empty ones, no two of
them share a terminal, and their members are the listed terminals; two listed terminals are in one
class exactly if a chain of listed terminals leads from one to the other, each not distinct from the
next; and the classes stand in the order of their smallest members. -/
theorem classes_exact (r : Registry) (ts : List Handle) :
    (∀ n f, Forest.Grown n f → ∀ i < n, ∃ f', f.find i = some (f.root i, f') ∧
      f'.size = f.size ∧ ∀ k, f'.root k = f.root k) ∧
      group? r (ofList ts) = some (classes r ts) ∧
      (∀ cls ∈ classes r ts, cls ≠ []) ∧ (classes r ts).Pairwise List.Disjoint ∧
      (∀ t, (∃ cls ∈ classes r ts, t ∈ cls) ↔ t ∈ ts) ∧
      (∀ t ∈ ts, ∀ u ∈ ts, (∃ cls ∈ classes r ts, t ∈ cls ∧ u ∈ cls) ↔ Linked r ts t u) ∧
      (classes r ts).Pairwise fun c d =>
        ∃ t ∈ c, (∀ u ∈ c, t = u ∨ t < u) ∧ ∀ u ∈ d, t < u := by
  obtain ⟨hgroup, h⟩ := components_classes r ts
  refine ⟨fun n f hf i hi => ?_, hgroup, h.nonempty, h.disjoint, fun t => h.cover,
    fun t ht u hu => ?_, h.ascending⟩
  · obtain ⟨hordered, hsize⟩ := hf.ordered
    obtain ⟨f', hf', hkeeps⟩ := hordered.find (hsize ▸ hi)
    exact ⟨f', hf', hkeeps.size, hkeeps.root⟩
  · constructor
    · rintro ⟨cls, hcls, ht, hu⟩
      exact (h.linked hcls ht u).1 hu
    · intro hlinked
      obtain ⟨cls, hcls, ht⟩ := h.cover.2 ht
      exact ⟨cls, hcls, ht, (h.linked hcls ht u).2 hlinked⟩

-- The first and the third terminal are distinct, and the second brings them into one class.
example : classes { groups := [[⟨-1⟩, ⟨-3⟩, ⟨-4⟩], [⟨-2⟩, ⟨-4⟩]] }
    [⟨-1⟩, ⟨-2⟩, ⟨-3⟩, ⟨-4⟩] = [[⟨-4⟩], [⟨-3⟩, ⟨-2⟩, ⟨-1⟩]] := by decide

end Mixfix.Plan
