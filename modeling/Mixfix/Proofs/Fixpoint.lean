import Mathlib.Data.List.Perm.Subperm
import Mathlib.Order.Nat
import Mixfix.Ascending
import Mixfix.Proofs.Lookup
import Mixfix.Reach

/-!
# Finite maps and iteration to a fixed point

The maps into sets of `Ascending` are read through `Maps m a b`: `b` is in the set under the key
`a`.  Adding to a set or a map leaves it as it was or makes it larger, so an iteration that only
adds comes to rest as soon as its steps outnumber what can be added.

* `maps_insertAt`, `maps_unionAt`: what a map holds after an addition.
* `Ordered.mem_lookup`: looking a key up gives the members of its set.
* `Ordered.weight_le`: a map holds at most as many pairs as there are keys and members to pair.
* `Ordered.unionAt_of_length`: an addition that keeps the size of a set changes nothing.
* `settle_fixed`: an iteration that grows inside a bound ends in a fixed point.
* `settle_add`: from there on, more steps change nothing.
-/

namespace Mixfix.Ascending

variable {α β : Type}

/-- The member `b` is in the set under the key `a`. -/
def Maps (m : List (α × List β)) (a : α) (b : β) : Prop := ∃ s, (a, s) ∈ m ∧ b ∈ s

@[simp] theorem maps_nil {a : α} {b : β} : ¬ Maps [] a b := fun ⟨_, h, _⟩ => nomatch h

theorem maps_cons {k : α} {s : List β} {m : List (α × List β)} {a : α} {b : β} :
    Maps ((k, s) :: m) a b ↔ a = k ∧ b ∈ s ∨ Maps m a b := by
  constructor
  · rintro ⟨t, ht, hb⟩
    rcases List.mem_cons.1 ht with h | h
    · cases h
      exact .inl ⟨rfl, hb⟩
    · exact .inr ⟨t, h, hb⟩
  · rintro (⟨rfl, hb⟩ | ⟨t, ht, hb⟩)
    · exact ⟨s, List.mem_cons_self, hb⟩
    · exact ⟨t, List.mem_cons_of_mem _ ht, hb⟩

instance [DecidableEq α] [DecidableEq β] (m : List (α × List β)) (a : α) (b : β) :
    Decidable (Maps m a b) :=
  decidable_of_iff (∃ e ∈ m, e.1 = a ∧ b ∈ e.2)
    ⟨fun ⟨e, he, heq, hb⟩ => ⟨e.2, heq ▸ he, hb⟩, fun ⟨s, hs, hb⟩ => ⟨(a, s), hs, rfl, hb⟩⟩

variable [LT α] [DecidableLT α] [LT β] [DecidableLT β]

/-- The keys ascend, and so does every set. -/
def Ordered (m : List (α × List β)) : Prop :=
  m.Pairwise (·.1 < ·.1) ∧ ∀ e ∈ m, Sorted e.2

omit [DecidableLT α] [DecidableLT β] in
@[simp] theorem ordered_nil : Ordered ([] : List (α × List β)) :=
  ⟨List.Pairwise.nil, fun _ h => nomatch h⟩

section

variable [StrictTotal α] [StrictTotal β]

/-! ### What a map holds -/

theorem maps_insertAt {a x : α} {b y : β} {m : List (α × List β)} :
    Maps (insertAt a b m) x y ↔ x = a ∧ y = b ∨ Maps m x y := by
  induction m with
  | nil => simp [insertAt, maps_cons]
  | cons e m ih =>
    obtain ⟨k, s⟩ := e
    rw [insertAt]
    split
    · simp [maps_cons]
    · split
      · rw [maps_cons, ih, maps_cons]
        exact or_left_comm
      · next h h' =>
        cases StrictTotal.tri h h'
        rw [maps_cons, maps_cons, mem_insert, and_or_left, or_assoc]

theorem maps_unionAt {a x : α} {t : List β} {y : β} {m : List (α × List β)} :
    Maps (unionAt a t m) x y ↔ x = a ∧ y ∈ t ∨ Maps m x y := by
  induction t generalizing m with
  | nil => simp [unionAt]
  | cons b t ih =>
    rw [unionAt, List.foldl_cons, ← unionAt, ih, maps_insertAt, List.mem_cons, and_or_left,
      or_assoc]
    exact or_left_comm

/-- What a map holds after an addition for each element of a list. -/
theorem maps_foldl_insertAt {γ : Type} (key : γ → α) (value : γ → β) {a : α} {b : β} (l : List γ)
    (m : List (α × List β)) :
    Maps (l.foldl (fun m c => insertAt (key c) (value c) m) m) a b ↔
      (∃ c ∈ l, key c = a ∧ value c = b) ∨ Maps m a b := by
  induction l generalizing m with
  | nil => simp
  | cons c l ih =>
    rw [List.foldl_cons, ih, maps_insertAt, List.exists_mem_cons_iff, ← or_assoc,
      or_comm (a := ∃ c ∈ l, _), @eq_comm _ a, @eq_comm _ b]

theorem ordered_insertAt {a : α} {b : β} {m : List (α × List β)} (h : Ordered m) :
    Ordered (insertAt a b m) ∧ ∀ e ∈ insertAt a b m, e.1 = a ∨ ∃ e' ∈ m, e'.1 = e.1 := by
  induction m with
  | nil =>
    refine ⟨⟨by simp [insertAt], ?_⟩, ?_⟩ <;>
    · intro e he
      rw [insertAt, List.mem_singleton] at he
      subst he
      simp
  | cons e m ih =>
    obtain ⟨k, s⟩ := e
    obtain ⟨hp, hs⟩ := h
    obtain ⟨hk, hp'⟩ := List.pairwise_cons.1 hp
    have hm : Ordered m := ⟨hp', fun e he => hs e (List.mem_cons_of_mem _ he)⟩
    rw [insertAt]
    split
    · -- A new key goes in front.
      next hak =>
      refine ⟨⟨List.pairwise_cons.2 ⟨fun e he => ?_, hp⟩, fun e he => ?_⟩, fun e he => ?_⟩
      · rcases List.mem_cons.1 he with rfl | he
        · exact hak
        · exact StrictTotal.trans hak (hk e he)
      · rcases List.mem_cons.1 he with rfl | he
        · simp
        · exact hs e he
      · rcases List.mem_cons.1 he with rfl | he
        · exact .inl rfl
        · exact .inr ⟨e, he, rfl⟩
    · split
      · next hka =>
        obtain ⟨hm', hkeys⟩ := ih hm
        refine ⟨⟨List.pairwise_cons.2 ⟨fun e he => ?_, hm'.1⟩, fun e he => ?_⟩, fun e he => ?_⟩
        · rcases hkeys e he with rfl | ⟨e', he', heq⟩
          · exact hka
          · exact heq ▸ hk e' he'
        · rcases List.mem_cons.1 he with rfl | he
          · exact hs _ List.mem_cons_self
          · exact hm'.2 e he
        · rcases List.mem_cons.1 he with rfl | he
          · exact .inr ⟨_, List.mem_cons_self, rfl⟩
          · rcases hkeys e he with h | ⟨e', he', heq⟩
            · exact .inl h
            · exact .inr ⟨e', List.mem_cons_of_mem _ he', heq⟩
      · refine ⟨⟨List.pairwise_cons.2 ⟨hk, hp'⟩, fun e he => ?_⟩, fun e he => ?_⟩
        · rcases List.mem_cons.1 he with rfl | he
          · exact sorted_insert (hs _ List.mem_cons_self)
          · exact hm.2 e he
        · rcases List.mem_cons.1 he with rfl | he
          · exact .inr ⟨_, List.mem_cons_self, rfl⟩
          · exact .inr ⟨e, List.mem_cons_of_mem _ he, rfl⟩

theorem ordered_unionAt {a : α} {t : List β} {m : List (α × List β)} (h : Ordered m) :
    Ordered (unionAt a t m) := by
  induction t generalizing m with
  | nil => exact h
  | cons b t ih => exact ih (ordered_insertAt h).1

theorem ordered_foldl_insertAt {γ : Type} (key : γ → α) (value : γ → β) (l : List γ)
    {m : List (α × List β)} (h : Ordered m) :
    Ordered (l.foldl (fun m c => insertAt (key c) (value c) m) m) :=
  List.foldlRecOn (motive := fun m : List (α × List β) => Ordered m) l _ h
    fun _ h _ _ => (ordered_insertAt h).1

omit [DecidableLT α] [DecidableLT β] [StrictTotal β] in
theorem Ordered.lookup_eq_some [DecidableEq α] {m : List (α × List β)} (h : Ordered m) {a : α}
    {s : List β} : m.lookup a = some s ↔ (a, s) ∈ m :=
  lookup_eq_some_iff_mem (Sorted.nodup (List.pairwise_map.2 h.1))

omit [DecidableLT α] [DecidableLT β] [StrictTotal β] in
/-- Looking a key up gives the members of its set. -/
theorem Ordered.mem_lookup [DecidableEq α] {m : List (α × List β)} (h : Ordered m) {a : α} {b : β} :
    b ∈ (m.lookup a).getD [] ↔ Maps m a b := by
  constructor
  · intro hb
    cases hl : m.lookup a with
    | none => rw [hl] at hb; cases hb
    | some s =>
      rw [hl] at hb
      exact ⟨s, h.lookup_eq_some.1 hl, hb⟩
  · rintro ⟨s, hs, hb⟩
    rw [h.lookup_eq_some.2 hs]
    exact hb

/-! ### Additions that change nothing -/

theorem Sorted.insert_of_mem {a : α} {s : List α} (h : Sorted s) (ha : a ∈ s) : insert a s = s :=
  (sorted_insert h).ext h fun _ => mem_insert.trans (or_iff_right_of_imp fun heq => heq ▸ ha)

theorem Ordered.insertAt_of_maps {m : List (α × List β)} (h : Ordered m) {a : α} {b : β}
    (hb : Maps m a b) : insertAt a b m = m := by
  induction m with
  | nil => exact absurd hb maps_nil
  | cons e m ih =>
    obtain ⟨k, s⟩ := e
    obtain ⟨hp, hs⟩ := h
    obtain ⟨hk, hp'⟩ := List.pairwise_cons.1 hp
    have hm : Ordered m := ⟨hp', fun e he => hs e (List.mem_cons_of_mem _ he)⟩
    -- A key that is not in front is behind the one in front.
    have hbehind : Maps m a b → k < a := fun ⟨t, ht, _⟩ => hk (a, t) ht
    rw [insertAt]
    rcases maps_cons.1 hb with ⟨rfl, hmem⟩ | hrest
    · rw [if_neg (StrictTotal.irrefl a), if_neg (StrictTotal.irrefl a),
        (hs _ List.mem_cons_self).insert_of_mem hmem]
    · have hka := hbehind hrest
      rw [if_neg fun hak => StrictTotal.irrefl a (StrictTotal.trans hak hka), if_pos hka,
        ih hm hrest]

theorem Ordered.unionAt_of_maps {m : List (α × List β)} (h : Ordered m) {a : α} {t : List β}
    (ht : ∀ b ∈ t, Maps m a b) : unionAt a t m = m := by
  induction t with
  | nil => rfl
  | cons b t ih =>
    obtain ⟨hb, ht⟩ := List.forall_mem_cons.1 ht
    rw [unionAt, List.foldl_cons, h.insertAt_of_maps hb]
    exact ih ht

omit [DecidableLT α] [DecidableLT β] [StrictTotal β] in
theorem Ordered.sorted_lookup [DecidableEq α] {m : List (α × List β)} (h : Ordered m) (a : α) :
    Sorted ((m.lookup a).getD []) := by
  cases hl : m.lookup a with
  | none => exact List.Pairwise.nil
  | some s => exact h.2 _ (h.lookup_eq_some.1 hl)

/-- An addition to one set leaves the map as it was if the set keeps its size. -/
theorem Ordered.unionAt_of_length [DecidableEq α] {m : List (α × List β)} (h : Ordered m) {a : α}
    {t : List β} (hlength : (((unionAt a t m).lookup a).getD []).length =
      ((m.lookup a).getD []).length) : unionAt a t m = m := by
  have ho : Ordered (unionAt a t m) := ordered_unionAt h
  have hsub : (m.lookup a).getD [] ⊆ ((unionAt a t m).lookup a).getD [] := fun b hb =>
    ho.mem_lookup.2 (maps_unionAt.2 (.inr (h.mem_lookup.1 hb)))
  have hperm := (List.Nodup.subperm (h.sorted_lookup a).nodup hsub).perm_of_length_le hlength.le
  refine h.unionAt_of_maps fun b hb => h.mem_lookup.1 (hperm.mem_iff.2 ?_)
  exact ho.mem_lookup.2 (maps_unionAt.2 (.inl ⟨rfl, hb⟩))

end

/-! ### Growth -/

/-- The number of pairs that a map holds. -/
def weight (m : List (α × List β)) : Nat := (m.flatMap (·.2)).length

omit [LT α] [DecidableLT α] [LT β] [DecidableLT β] in
theorem weight_cons (e : α × List β) (m : List (α × List β)) :
    weight (e :: m) = e.2.length + weight m := by
  simp [weight]

omit [LT α] [DecidableLT α] [LT β] [DecidableLT β] in
theorem weight_le_mul {m : List (α × List β)} {n : Nat} (h : ∀ e ∈ m, e.2.length ≤ n) :
    weight m ≤ m.length * n := by
  induction m with
  | nil => simp [weight]
  | cons e m ih =>
    obtain ⟨he, hm⟩ := List.forall_mem_cons.1 h
    rw [weight_cons, List.length_cons, Nat.succ_mul, Nat.add_comm]
    exact Nat.add_le_add (ih hm) he

theorem insert_grows (a : α) (s : List α) : insert a s = s ∨ s.length < (insert a s).length := by
  induction s with
  | nil => simp [insert]
  | cons b s ih =>
    rw [insert]
    split
    · simp
    · split
      · rcases ih with h | h
        · exact .inl (congrArg (b :: ·) h)
        · exact .inr (Nat.succ_lt_succ h)
      · exact .inl rfl

theorem insertAt_grows (a : α) (b : β) (m : List (α × List β)) :
    insertAt a b m = m ∨ weight m < weight (insertAt a b m) := by
  induction m with
  | nil => simp [insertAt, weight]
  | cons e m ih =>
    obtain ⟨k, s⟩ := e
    rw [insertAt]
    split
    · simp [weight]
    · split
      · rcases ih with h | h
        · exact .inl (congrArg ((k, s) :: ·) h)
        · refine .inr ?_
          rw [weight_cons, weight_cons]
          exact Nat.add_lt_add_left h _
      · rcases insert_grows b s with h | h
        · exact .inl (by rw [h])
        · refine .inr ?_
          rw [weight_cons, weight_cons]
          exact Nat.add_lt_add_right h _

end Mixfix.Ascending

namespace Mixfix

/-- Steps that leave a value or enlarge it, in a row. -/
theorem foldl_grows {α γ : Type} {size : α → Nat} {f : α → γ → α}
    (h : ∀ a c, f a c = a ∨ size a < size (f a c)) (l : List γ) (a : α) :
    l.foldl f a = a ∨ size a < size (l.foldl f a) := by
  induction l generalizing a with
  | nil => exact .inl rfl
  | cons c l ih =>
    rw [List.foldl_cons]
    rcases h a c with hc | hc
    · rw [hc]
      exact ih a
    · rcases ih (f a c) with hl | hl
      · rw [hl]
        exact .inr hc
      · exact .inr (hc.trans hl)

/-- A row of steps that changes nothing is made of steps that change nothing. -/
theorem foldl_fixed {α γ : Type} {size : α → Nat} {f : α → γ → α}
    (h : ∀ a c, f a c = a ∨ size a < size (f a c)) {l : List γ} {a : α} (hl : l.foldl f a = a) :
    ∀ c ∈ l, f a c = a := by
  induction l with
  | nil => exact fun _ h => nomatch h
  | cons c l ih =>
    rw [List.foldl_cons] at hl
    have hc : f a c = a := by
      refine (h a c).resolve_right fun hc => ?_
      rcases foldl_grows h l (f a c) with h' | h'
      · rw [hl] at h'
        rw [← h'] at hc
        exact Nat.lt_irrefl _ hc
      · rw [hl] at h'
        exact Nat.lt_asymm hc h'
    rw [hc] at hl
    exact List.forall_mem_cons.2 ⟨hc, ih hl⟩

namespace Ascending

variable {α β : Type} [LT α] [DecidableLT α] [LT β] [DecidableLT β]

theorem unionAt_grows (a : α) (t : List β) (m : List (α × List β)) :
    unionAt a t m = m ∨ weight m < weight (unionAt a t m) :=
  foldl_grows (fun m b => insertAt_grows a b m) t m

variable [StrictTotal α] [StrictTotal β]

omit [DecidableLT α] in
theorem Sorted.length_le {s t : List α} (h : Sorted s) (hst : ∀ a ∈ s, a ∈ t) :
    s.length ≤ t.length :=
  h.nodup.length_le_of_subset fun a => hst a

omit [DecidableLT α] [DecidableLT β] in
/-- A map holds at most as many pairs as there are keys and members to pair. -/
theorem Ordered.weight_le {m : List (α × List β)} (h : Ordered m) {keys : List α} {members : List β}
    (hk : ∀ e ∈ m, e.1 ∈ keys) (hm : ∀ a b, Maps m a b → b ∈ members) :
    weight m ≤ keys.length * members.length := by
  have hlen : (m.map (·.1)).length ≤ keys.length := by
    refine Sorted.length_le (List.pairwise_map.2 h.1) fun a ha => ?_
    obtain ⟨e, he, rfl⟩ := List.mem_map.1 ha
    exact hk e he
  have hweight : weight m ≤ m.length * members.length :=
    weight_le_mul fun e he => (h.2 e he).length_le fun b hb => hm e.1 b ⟨e.2, he, hb⟩
  rw [List.length_map] at hlen
  exact hweight.trans (Nat.mul_le_mul_right _ hlen)

end Ascending

/-! ### Iteration -/

section

variable {α : Type} [DecidableEq α] {f : α → α} {K : α → Prop}

/-- What every step keeps, the iteration keeps. -/
theorem settle_keeps (hf : ∀ a, K a → K (f a)) (n : Nat) {a : α} (ha : K a) :
    K (settle f n a) := by
  induction n generalizing a with
  | zero => exact ha
  | succ n ih =>
    rw [settle]
    split
    · exact ha
    · exact ih (hf a ha)

/-- An iteration whose steps grow inside a bound, and may outnumber it, ends in a fixed point. -/
theorem settle_fixed (size : α → Nat) (bound : Nat) (hf : ∀ a, K a → K (f a))
    (hgrow : ∀ a, f a = a ∨ size a < size (f a)) (hbound : ∀ a, K a → size a ≤ bound)
    {n : Nat} {a : α} (ha : K a) (hn : bound < size a + n) :
    f (settle f n a) = settle f n a := by
  induction n generalizing a with
  | zero => exact absurd (hbound a ha) (by omega)
  | succ n ih =>
    rw [settle]
    split
    · next h => exact h
    · next h =>
      have hlt : size a < size (f a) := (hgrow a).resolve_left h
      exact ih (hf a ha) (by omega)

/-- An iteration that has come to rest stays there, however many more steps it may make. -/
theorem settle_add {n : Nat} {a : α} (h : f (settle f n a) = settle f n a) (more : Nat) :
    settle f (n + more) a = settle f n a := by
  induction n generalizing a with
  | zero =>
    have ha : f a = a := h
    cases more with
    | zero => rfl
    | succ more => simp [settle, ha]
  | succ n ih =>
    rw [Nat.succ_add, settle, settle]
    rw [settle] at h
    split
    · rfl
    · next hne =>
      rw [if_neg hne] at h
      exact ih h

end

end Mixfix
