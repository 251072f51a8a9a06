import Mathlib.Data.List.Nodup

/-!
# Looking up keys

Looking a key up finds the first pair with that key.  It finds every such pair if the key has one
value only, and then the order of the pairs does not matter.

* `mem_of_lookup_eq_some`, `exists_lookup_of_mem`: what is found is there, and every key is found.
* `lookup_eq_some_of_unique`, `lookup_eq_some_iff_mem`: every pair is found.
* `lookup_eq_of_perm`: the order does not matter.
-/

namespace Mixfix

variable {α β : Type} [DecidableEq α] {l : List (α × β)} {a : α} {b : β}

/-- What is found is there. -/
theorem mem_of_lookup_eq_some (h : l.lookup a = some b) : (a, b) ∈ l := by
  obtain ⟨before, after, rfl, -⟩ := List.lookup_eq_some_iff.1 h
  simp

/-- Something is found for every key that is there. -/
theorem exists_lookup_of_mem {e : α × β} (h : e ∈ l) : ∃ b, l.lookup e.1 = some b :=
  Option.isSome_iff_exists.1 (List.lookup_isSome_iff.2 ⟨e, h, beq_self_eq_true e.1⟩)

/-- Where a key has one value, looking it up finds its pair. -/
theorem lookup_eq_some_of_unique (h : ∀ {b b'}, (a, b) ∈ l → (a, b') ∈ l → b = b') :
    l.lookup a = some b ↔ (a, b) ∈ l := by
  refine ⟨mem_of_lookup_eq_some, fun hb => ?_⟩
  obtain ⟨b', hb'⟩ := exists_lookup_of_mem hb
  rw [hb', h hb (mem_of_lookup_eq_some hb')]

/-- Where no key comes twice, looking up a key finds every pair. -/
theorem lookup_eq_some_iff_mem (h : (l.map (·.1)).Nodup) : l.lookup a = some b ↔ (a, b) ∈ l :=
  lookup_eq_some_of_unique fun hb hb' => congrArg Prod.snd (List.inj_on_of_nodup_map h hb hb' rfl)

/-- Where no key comes twice, the order of the pairs does not matter for looking up a key. -/
theorem lookup_eq_of_perm {l' : List (α × β)} (h : l.Perm l') (hn : (l'.map (·.1)).Nodup) (a : α) :
    l.lookup a = l'.lookup a := by
  refine Option.ext fun b => ?_
  rw [lookup_eq_some_iff_mem ((h.map _).nodup_iff.2 hn), lookup_eq_some_iff_mem hn, h.mem_iff]

end Mixfix
