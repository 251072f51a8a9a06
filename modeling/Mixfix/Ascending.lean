/-!
# Finite sets as ascending lists

A finite set is kept as a strictly ascending list, so equal sets are equal lists. A finite map
into sets is an ascending list of keys, each with its set.

* `mem_insert`, `mem_ofList`, `mem_union`: the members of each construction.
* `sorted_insert`, `sorted_ofList`, `sorted_union`: each construction is ascending.
* `Sorted.ext`: ascending lists with the same members are equal.
-/

namespace Mixfix.Ascending

/-- `<` is a strict total order. -/
class StrictTotal (α : Type) [LT α] : Prop where
  irrefl : ∀ a : α, ¬ a < a
  trans : ∀ {a b c : α}, a < b → b < c → a < c
  tri : ∀ {a b : α}, ¬ a < b → ¬ b < a → a = b

instance : StrictTotal Nat where
  irrefl := Nat.lt_irrefl
  trans := Nat.lt_trans
  tri := by omega

instance : StrictTotal String where
  irrefl := String.lt_irrefl
  trans := String.lt_trans
  tri h h' := String.le_antisymm (String.not_lt.1 h') (String.not_lt.1 h)

variable {α β : Type} [LT α] [DecidableLT α] [LT β] [DecidableLT β]

/-- Adds a member, in its place; a member already there stays as it is. -/
def insert (a : α) : List α → List α
  | [] => [a]
  | b :: s => if a < b then a :: b :: s else if b < a then b :: insert a s else b :: s

/-- The members of both sets. -/
def union (s t : List α) : List α := t.foldl (fun u a => insert a u) s

/-- The members of a list, in order and once each. -/
def ofList (l : List α) : List α := union [] l

/-- Adds `b` to the set under the key `a`. -/
def insertAt (a : α) (b : β) : List (α × List β) → List (α × List β)
  | [] => [(a, [b])]
  | (k, s) :: m =>
    if a < k then (a, [b]) :: (k, s) :: m
    else if k < a then (k, s) :: insertAt a b m
    else (k, insert b s) :: m

/-- Adds the members of `t` to the set under the key `a`; the empty set adds no key. -/
def unionAt (a : α) (t : List β) (m : List (α × List β)) : List (α × List β) :=
  t.foldl (fun m b => insertAt a b m) m

/-- Strictly ascending. -/
abbrev Sorted (s : List α) : Prop := s.Pairwise (· < ·)

/-! ### Members -/

section

variable [StrictTotal α]

theorem mem_insert {a x : α} {s : List α} : x ∈ insert a s ↔ x = a ∨ x ∈ s := by
  induction s with
  | nil => simp [insert]
  | cons b s ih =>
    rw [insert]
    split
    · simp
    · split
      · rw [List.mem_cons, ih, List.mem_cons]
        exact or_left_comm
      · next h h' =>
        cases StrictTotal.tri h h'
        rw [List.mem_cons]
        exact ⟨.inr, fun h => h.elim .inl id⟩

theorem mem_union {x : α} {s t : List α} : x ∈ union s t ↔ x ∈ s ∨ x ∈ t := by
  induction t generalizing s with
  | nil => simp [union]
  | cons a t ih =>
    rw [union, List.foldl_cons, ← union, ih, mem_insert, List.mem_cons, or_assoc]
    exact or_left_comm

theorem mem_ofList {x : α} {l : List α} : x ∈ ofList l ↔ x ∈ l := by
  rw [ofList, mem_union]
  simp

/-! ### Order -/

theorem sorted_insert {a : α} {s : List α} (h : Sorted s) : Sorted (insert a s) := by
  induction s with
  | nil => simp [insert, Sorted]
  | cons b s ih =>
    obtain ⟨hb, hs⟩ := List.pairwise_cons.1 h
    rw [insert]
    split
    · next hab =>
      refine List.pairwise_cons.2 ⟨fun x hx => ?_, h⟩
      rcases List.mem_cons.1 hx with rfl | hx
      · exact hab
      · exact StrictTotal.trans hab (hb x hx)
    · split
      · next hba =>
        refine List.pairwise_cons.2 ⟨fun x hx => ?_, ih hs⟩
        rcases mem_insert.1 hx with rfl | hx
        · exact hba
        · exact hb x hx
      · exact h

theorem sorted_union {s t : List α} (h : Sorted s) : Sorted (union s t) := by
  induction t generalizing s with
  | nil => exact h
  | cons a t ih => exact ih (sorted_insert h)

theorem sorted_ofList (l : List α) : Sorted (ofList l) := sorted_union List.Pairwise.nil

omit [DecidableLT α] in
theorem Sorted.nodup {s : List α} (h : Sorted s) : s.Nodup := by
  refine List.Pairwise.imp (fun {a b} hab heq => ?_) h
  subst heq
  exact StrictTotal.irrefl a hab

omit [DecidableLT α] in
/-- Ascending lists with the same members are equal. -/
theorem Sorted.ext {s t : List α} (hs : Sorted s) (ht : Sorted t) (h : ∀ x, x ∈ s ↔ x ∈ t) :
    s = t := by
  induction s generalizing t with
  | nil =>
    cases t with
    | nil => rfl
    | cons b t => exact absurd ((h b).2 List.mem_cons_self) List.not_mem_nil
  | cons a s ih =>
    cases t with
    | nil => exact absurd ((h a).1 List.mem_cons_self) List.not_mem_nil
    | cons b t =>
      obtain ⟨has, hs⟩ := List.pairwise_cons.1 hs
      obtain ⟨hbt, ht'⟩ := List.pairwise_cons.1 ht
      have hab : a = b := by
        rcases List.mem_cons.1 ((h a).1 List.mem_cons_self) with hab | hat
        · exact hab
        · rcases List.mem_cons.1 ((h b).2 List.mem_cons_self) with hba | hbs
          · exact hba.symm
          · exact absurd (StrictTotal.trans (has b hbs) (hbt a hat)) (StrictTotal.irrefl a)
      subst hab
      refine congrArg (a :: ·) (ih hs ht' fun x => ⟨fun hx => ?_, fun hx => ?_⟩)
      · rcases List.mem_cons.1 ((h x).1 (List.mem_cons_of_mem a hx)) with rfl | hxt
        · exact absurd (has x hx) (StrictTotal.irrefl x)
        · exact hxt
      · rcases List.mem_cons.1 ((h x).2 (List.mem_cons_of_mem a hx)) with rfl | hxs
        · exact absurd (hbt x hx) (StrictTotal.irrefl x)
        · exact hxs

end

end Mixfix.Ascending
