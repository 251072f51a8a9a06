import Mixfix.Ascending

/-!
# Actions

What a state may do on a terminal. Shifts come before reductions, and these, by the number of their
rule, before the accepting move.
-/

namespace Mixfix

/-- A move of the automaton. -/
inductive Action where
  /-- Takes the terminal and goes to the state. -/
  | shift (target : Nat)
  /-- Reduces by the rule. -/
  | reduce (rule : Nat)
  | accept
deriving DecidableEq

namespace Action

/-- The place of an action in the order: its sort, then its number. -/
def rank : Action → Nat × Nat
  | shift target => (0, target)
  | reduce rule => (1, rule)
  | accept => (2, 0)

instance : LT Action :=
  ⟨fun a b => a.rank.1 < b.rank.1 ∨ a.rank.1 = b.rank.1 ∧ a.rank.2 < b.rank.2⟩

theorem lt_iff {a b : Action} :
    a < b ↔ a.rank.1 < b.rank.1 ∨ a.rank.1 = b.rank.1 ∧ a.rank.2 < b.rank.2 := Iff.rfl

instance : DecidableLT Action := fun a b => decidable_of_iff _ (lt_iff (a := a) (b := b)).symm

theorem rank_injective {a b : Action} (h : a.rank = b.rank) : a = b := by
  cases a <;> cases b <;> simp_all [rank]

instance : Ascending.StrictTotal Action where
  irrefl a h := by rw [lt_iff] at h; omega
  trans h h' := by rw [lt_iff] at *; omega
  tri h h' := by
    rw [lt_iff] at h h'
    exact rank_injective (Prod.ext (by omega) (by omega))

/-- `s` and the target, `r` and the rule, or `acc`. -/
def render : Action → String
  | shift target => s!"s{target}"
  | reduce rule => s!"r{rule}"
  | accept => "acc"

end Action

end Mixfix
