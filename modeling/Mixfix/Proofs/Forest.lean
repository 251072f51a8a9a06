import Mathlib.Logic.Relation
import Mathlib.Order.Lattice.Nat
import Mixfix.Forest

/-!
# The groups of a forest

In a forest whose parents are never above their children, every number has a root, which is not
above it either.  A climb is over after at most one turn for each number up to its start, and what
it changes on the way leaves every root what it was; to join two groups gives the numbers under one
root the other, and no other number a new one.  So two numbers have one root exactly if a chain of
joins leads from one to the other, and the root of a group is the smallest number in it.

* `Forest.root`: the root above a number.
* `Forest.Ordered.climb`: what a climb comes to.
* `Forest.Ordered.unite`: the roots after two groups are joined.
* `Forest.Grown`: the forests that climbs and joins lead to.
* `Forest.Grown.ordered`: in all of them no parent is above its child, and no number is missing.
* `Forest.Represents.unite`: the groups after a join.
-/

namespace Mixfix.Forest

open Relation

variable {f f' : Forest} {i j k p a b : Nat}

/-- No parent is above its child. -/
def Ordered (f : Forest) : Prop := ∀ i p, f.parent? i = some p → p ≤ i

/-- The root above a number. -/
def root (f : Forest) (i : Nat) : Nat :=
  match f.parent? i with
  | some p => if _ : p < i then f.root p else i
  | none => i
termination_by i

/-! ### Roots -/

theorem root_of_parent? (h : f.parent? i = some p) (hp : p < i) : f.root i = f.root p := by
  rw [root, h]
  exact dif_pos hp

theorem root_of_not_lt (h : ∀ p, f.parent? i = some p → ¬ p < i) : f.root i = i := by
  rw [root]
  cases hp : f.parent? i with
  | none => rfl
  | some p => exact dif_neg (h p hp)

theorem root_self (h : f.parent? i = some i) : f.root i = i :=
  root_of_not_lt fun p hp => by
    cases h.symm.trans hp
    exact Nat.lt_irrefl i

theorem root_le (f : Forest) (i : Nat) : f.root i ≤ i := by
  induction i using Nat.strongRecOn with
  | ind i ih =>
    by_cases h : ∃ p, f.parent? i = some p ∧ p < i
    · obtain ⟨p, hp, hlt⟩ := h
      rw [root_of_parent? hp hlt]
      exact (ih p hlt).trans hlt.le
    · exact (root_of_not_lt fun p hp hlt => h ⟨p, hp, hlt⟩).le

theorem root_root (f : Forest) (i : Nat) : f.root (f.root i) = f.root i := by
  induction i using Nat.strongRecOn with
  | ind i ih =>
    by_cases h : ∃ p, f.parent? i = some p ∧ p < i
    · obtain ⟨p, hp, hlt⟩ := h
      rw [root_of_parent? hp hlt, ih p hlt]
    · have hi : f.root i = i := root_of_not_lt fun p hp hlt => h ⟨p, hp, hlt⟩
      rw [hi, hi]

theorem parent?_eq_some (h : i < f.size) : ∃ p, f.parent? i = some p :=
  ⟨_, List.getElem?_eq_getElem h⟩

theorem lt_size_of_parent? (h : f.parent? i = some p) : i < f.size :=
  (List.getElem?_eq_some_iff.1 h).1

namespace Ordered

theorem root_parent (h : f.Ordered) (hp : f.parent? i = some p) : f.root p = f.root i := by
  rcases (h i p hp).lt_or_eq with hlt | rfl
  · exact (root_of_parent? hp hlt).symm
  · rfl

/-- The root is its own parent. -/
theorem parent?_root (h : f.Ordered) (hi : i < f.size) :
    f.parent? (f.root i) = some (f.root i) := by
  induction i using Nat.strongRecOn with
  | ind i ih =>
    obtain ⟨p, hp⟩ := parent?_eq_some hi
    rcases (h i p hp).lt_or_eq with hlt | rfl
    · rw [root_of_parent? hp hlt]
      exact ih p hlt (hlt.trans hi)
    · rw [root_self hp]
      exact hp

end Ordered

/-! ### Other parents -/

/-- The forest with another parent for one number. -/
def Hung (f : Forest) (i p : Nat) (f' : Forest) : Prop :=
  f'.size = f.size ∧ ∀ k, f'.parent? k = if k = i then some p else f.parent? k

theorem exists_hang (hi : i < f.size) (p : Nat) : ∃ f', f.hang i p = some f' ∧ Hung f i p f' := by
  refine ⟨_, if_pos hi, List.length_set, fun k => ?_⟩
  rw [parent?, parent?, List.getElem?_set]
  by_cases hk : k = i
  · rw [if_pos hk.symm, if_pos hk, if_pos (show i < f.parents.length from hi)]
  · rw [if_neg (Ne.symm hk), if_neg hk]

namespace Hung

theorem ordered (hh : Hung f i p f') (h : f.Ordered) (hp : p ≤ i) : f'.Ordered := by
  intro k q hq
  rw [hh.2] at hq
  split at hq
  · next hk =>
    cases hq
    rw [hk]
    exact hp
  · exact h k q hq

/-- A number below one that has the same root may become its parent: all roots stay. -/
theorem root_eq (hh : Hung f i p f') (hp : p < i) (hroot : f.root p = f.root i) (k : Nat) :
    f'.root k = f.root k := by
  induction k using Nat.strongRecOn with
  | ind k ih =>
    by_cases hk : k = i
    · subst hk
      rw [root_of_parent? ((hh.2 k).trans (if_pos rfl)) hp, ih p hp, hroot]
    · have hsame : f'.parent? k = f.parent? k := (hh.2 k).trans (if_neg hk)
      by_cases h : ∃ q, f.parent? k = some q ∧ q < k
      · obtain ⟨q, hq, hlt⟩ := h
        rw [root_of_parent? (hsame.trans hq) hlt, root_of_parent? hq hlt, ih q hlt]
      · rw [root_of_not_lt fun q hq hlt => h ⟨q, hsame ▸ hq, hlt⟩,
          root_of_not_lt fun q hq hlt => h ⟨q, hq, hlt⟩]

/-- A root hung on another one: what was below it comes under the other. -/
theorem root_join (hh : Hung f b a f') (hab : a ≤ b) (ha : f.parent? a = some a)
    (hb : f.parent? b = some b) (k : Nat) :
    f'.root k = if f.root k = b then a else f.root k := by
  have ha' : f'.root a = a := by
    refine root_self ((hh.2 a).trans ?_)
    split
    · rfl
    · exact ha
  induction k using Nat.strongRecOn with
  | ind k ih =>
    by_cases hk : k = b
    · subst hk
      rw [root_self hb, if_pos rfl]
      rcases hab.lt_or_eq with hlt | rfl
      · rw [root_of_parent? ((hh.2 k).trans (if_pos rfl)) hlt, ha']
      · exact ha'
    · have hsame : f'.parent? k = f.parent? k := (hh.2 k).trans (if_neg hk)
      by_cases h : ∃ q, f.parent? k = some q ∧ q < k
      · obtain ⟨q, hq, hlt⟩ := h
        rw [root_of_parent? (hsame.trans hq) hlt, root_of_parent? hq hlt, ih q hlt]
      · rw [root_of_not_lt fun q hq hlt => h ⟨q, hsame ▸ hq, hlt⟩,
          root_of_not_lt fun q hq hlt => h ⟨q, hq, hlt⟩, if_neg hk]

end Hung

/-! ### Climbs and joins -/

/-- The forest has the numbers and the roots of another one. -/
structure Keeps (f f' : Forest) : Prop where
  ordered : f'.Ordered
  size : f'.size = f.size
  root : ∀ k, f'.root k = f.root k

theorem Keeps.trans {f'' : Forest} (h : Keeps f f') (h' : Keeps f' f'') : Keeps f f'' :=
  ⟨h'.ordered, h'.size.trans h.size, fun k => (h'.root k).trans (h.root k)⟩

namespace Ordered

/-- A climb with more turns than numbers below its start comes to the root, and keeps all roots. -/
theorem climb {bound : Nat} (h : f.Ordered) (hi : i < f.size) (hb : i < bound) :
    ∃ f', climb bound f i = some (f.root i, f') ∧ Keeps f f' := by
  induction bound generalizing f i with
  | zero => exact absurd hb (Nat.not_lt_zero i)
  | succ bound ih =>
    obtain ⟨p, hp⟩ := parent?_eq_some hi
    rw [Forest.climb, hp, Option.bind_eq_bind, Option.bind_some]
    by_cases heq : p = i
    · subst heq
      rw [if_pos rfl, root_self hp]
      exact ⟨f, rfl, h, rfl, fun _ => rfl⟩
    · -- Both the parent and its parent are below, and under the same root.
      have hlt : p < i := lt_of_le_of_ne (h i p hp) heq
      obtain ⟨q, hq⟩ := parent?_eq_some (hlt.trans hi)
      have hqi : q < i := (h p q hq).trans_lt hlt
      have hroot : f.root q = f.root i := (h.root_parent hq).trans (h.root_parent hp)
      obtain ⟨f₁, hf₁, hhung⟩ := exists_hang hi q
      have hkeeps : Keeps f f₁ := ⟨hhung.ordered h hqi.le, hhung.1, hhung.root_eq hqi hroot⟩
      obtain ⟨f', hf', hkeeps'⟩ := ih hkeeps.ordered (hkeeps.size ▸ hqi.trans hi)
        (hqi.trans_le (Nat.le_of_lt_succ hb))
      rw [if_neg heq, hq, Option.bind_some, hf₁, Option.bind_eq_bind, Option.bind_some, hf',
        hkeeps.root, hroot]
      exact ⟨f', rfl, hkeeps.trans hkeeps'⟩

theorem find (h : f.Ordered) (hi : i < f.size) :
    ∃ f', f.find i = some (f.root i, f') ∧ Keeps f f' :=
  h.climb hi hi

/-- A join gives the numbers under the greater of the two roots the smaller one. -/
theorem unite (h : f.Ordered) (hi : i < f.size) (hj : j < f.size) :
    ∃ f', f.unite i j = some f' ∧ f'.Ordered ∧ f'.size = f.size ∧
      ∀ k, f'.root k = if f.root k = max (f.root i) (f.root j) then min (f.root i) (f.root j)
        else f.root k := by
  obtain ⟨f₁, hf₁, h₁⟩ := h.find hi
  obtain ⟨f₂, hf₂, h₂⟩ := h₁.ordered.find (h₁.size ▸ hj)
  have hkeeps := h₁.trans h₂
  -- Both roots are roots after the climbs, so the one that is hung is not under the other.
  have hparent : ∀ {k}, k < f.size → f₂.parent? (f.root k) = some (f.root k) := fun hk => by
    rw [← hkeeps.root]
    exact hkeeps.ordered.parent?_root (hkeeps.size ▸ hk)
  have hmax : f₂.parent? (max (f.root i) (f.root j)) = some (max (f.root i) (f.root j)) :=
    max_rec (p := fun m => f₂.parent? m = some m) (fun _ => hparent hi) fun _ => hparent hj
  have hmin : f₂.parent? (min (f.root i) (f.root j)) = some (min (f.root i) (f.root j)) :=
    min_rec (p := fun m => f₂.parent? m = some m) (fun _ => hparent hi) fun _ => hparent hj
  obtain ⟨f', hf', hhung⟩ := exists_hang (lt_size_of_parent? hmax) (min (f.root i) (f.root j))
  refine ⟨f', ?_, hhung.ordered hkeeps.ordered min_le_max, hhung.1.trans hkeeps.size, fun k => ?_⟩
  · simp only [Forest.unite, hf₁, hf₂, Option.bind_eq_bind, Option.bind_some, h₁.root]
    exact hf'
  · rw [hhung.root_join min_le_max hmin hmax, hkeeps.root]

end Ordered

/-! ### All forests -/

theorem parent?_roots {n : Nat} : (roots n).parent? i = if i < n then some i else none := by
  rw [parent?, roots]
  split
  · next hi => exact List.getElem?_range hi
  · next hi => exact List.getElem?_eq_none (by rw [List.length_range]; exact Nat.le_of_not_lt hi)

theorem ordered_roots (n : Nat) : (roots n).Ordered := by
  intro i p hp
  rw [parent?_roots] at hp
  split at hp
  · cases hp
    exact le_rfl
  · cases hp

/-- The forests over the numbers below `n` that climbs and joins lead to. -/
inductive Grown (n : Nat) : Forest → Prop where
  | roots : Grown n (roots n)
  | find {f f' : Forest} {i root : Nat} : Grown n f → i < n → f.find i = some (root, f') →
      Grown n f'
  | unite {f f' : Forest} {i j : Nat} : Grown n f → i < n → j < n → f.unite i j = some f' →
      Grown n f'

namespace Grown

variable {n : Nat}

theorem ordered (h : Grown n f) : f.Ordered ∧ f.size = n := by
  induction h with
  | roots => exact ⟨ordered_roots n, List.length_range⟩
  | find _ hi hfind ih =>
    obtain ⟨f', hf', hkeeps⟩ := ih.1.find (ih.2 ▸ hi)
    cases hf'.symm.trans hfind
    exact ⟨hkeeps.ordered, hkeeps.size.trans ih.2⟩
  | unite _ hi hj hunite ih =>
    obtain ⟨f', hf', hordered, hsize, -⟩ := ih.1.unite (ih.2 ▸ hi) (ih.2 ▸ hj)
    cases hf'.symm.trans hunite
    exact ⟨hordered, hsize.trans ih.2⟩

end Grown

/-! ### Groups -/

/-- Two numbers have one root exactly if steps of the relation, either way, lead from one to the
other. -/
def Represents (f : Forest) (R : Nat → Nat → Prop) : Prop :=
  ∀ k l, f.root k = f.root l ↔ EqvGen R k l

theorem root_roots (n i : Nat) : (roots n).root i = i :=
  root_of_not_lt fun p hp => by
    rw [parent?_roots] at hp
    split at hp
    · cases hp
      exact Nat.lt_irrefl i
    · cases hp

/-- At first every number is a group of its own. -/
theorem represents_roots (n : Nat) : (roots n).Represents fun _ _ => False := by
  intro k l
  rw [root_roots, root_roots]
  refine ⟨fun heq => heq ▸ .refl k, fun h => ?_⟩
  induction h with
  | rel _ _ h => exact h.elim
  | refl => rfl
  | symm _ _ _ ih => exact ih.symm
  | trans _ _ _ _ _ ih ih' => exact ih.trans ih'

section

variable {R : Nat → Nat → Prop}

/-- After a join, every number is linked to its root: to one that was hung, through `i` and `j`. -/
theorem Represents.linked_root (h : f.Represents R)
    (hroot : ∀ k, f'.root k = if f.root k = max (f.root i) (f.root j) then
      min (f.root i) (f.root j) else f.root k) (k : Nat) :
    EqvGen (fun k l => R k l ∨ k = i ∧ l = j) k (f'.root k) := by
  have hold : ∀ k, EqvGen (fun k l => R k l ∨ k = i ∧ l = j) k (f.root k) := fun k =>
    EqvGen.mono (fun _ _ => .inl) _ _ ((h k (f.root k)).1 (root_root f k).symm)
  have hjoin : EqvGen (fun k l => R k l ∨ k = i ∧ l = j) (f.root i) (f.root j) :=
    .trans _ _ _ (.symm _ _ (hold i)) (.trans _ _ _ (.rel _ _ (.inr ⟨rfl, rfl⟩)) (hold j))
  have hmaxmin : EqvGen (fun k l => R k l ∨ k = i ∧ l = j) (max (f.root i) (f.root j))
      (min (f.root i) (f.root j)) := by
    rcases le_total (f.root i) (f.root j) with hle | hle
    · rw [max_eq_right hle, min_eq_left hle]
      exact .symm _ _ hjoin
    · rw [max_eq_left hle, min_eq_right hle]
      exact hjoin
  rw [hroot]
  split
  · next hk => exact .trans _ _ _ (hk ▸ hold k) hmaxmin
  · exact hold k

/-- A join adds one step to the relation. -/
theorem Represents.unite (h : f.Represents R)
    (hroot : ∀ k, f'.root k = if f.root k = max (f.root i) (f.root j) then
      min (f.root i) (f.root j) else f.root k) :
    f'.Represents fun k l => R k l ∨ k = i ∧ l = j := by
  intro k l
  constructor
  · intro heq
    exact .trans _ _ _ (h.linked_root hroot k) (heq ▸ .symm _ _ (h.linked_root hroot l))
  · intro hlinked
    induction hlinked with
    | rel k l hkl =>
      rcases hkl with hkl | ⟨rfl, rfl⟩
      · rw [hroot, hroot, (h k l).2 (.rel k l hkl)]
      · -- One of the two roots is the greater, and the smaller stays.
        rw [hroot, hroot]
        split_ifs <;> omega
    | refl => rfl
    | symm _ _ _ ih => exact ih.symm
    | trans _ _ _ _ _ ih ih' => exact ih.trans ih'

end

end Mixfix.Forest
