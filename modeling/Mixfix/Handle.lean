import Mixfix.Ascending

/-!
# Symbol handles

A grammar symbol is known by an integer: positive for a nonterminal, negative for a terminal, and
zero for the end of input, which counts as a terminal.
-/

namespace Mixfix

/-- The number of a grammar symbol. -/
structure Handle where
  id : Int
deriving DecidableEq, Inhabited

namespace Handle

/-- The end of input. -/
def endOfInput : Handle := ⟨0⟩

instance : LT Handle := ⟨fun a b => a.id < b.id⟩

theorem lt_iff {a b : Handle} : a < b ↔ a.id < b.id := Iff.rfl

instance : DecidableLT Handle := fun a b => inferInstanceAs (Decidable (a.id < b.id))

theorem ext_id {a b : Handle} (h : a.id = b.id) : a = b := by
  cases a; cases b; cases h; rfl

instance : Ascending.StrictTotal Handle where
  irrefl a := Int.lt_irrefl a.id
  trans := Int.lt_trans
  tri h h' := ext_id (by rw [lt_iff] at h h'; omega)

/-- The handle of the end of input. -/
def isEnd (h : Handle) : Bool := h.id = 0

/-- A terminal, or the end of input. -/
def isTerminal (h : Handle) : Bool := h.id ≤ 0

/-- A nonterminal. -/
def isNonTerminal (h : Handle) : Bool := 0 < h.id

theorem isNonTerminal_eq (h : Handle) : h.isNonTerminal = !h.isTerminal := by
  simp only [isNonTerminal, isTerminal]
  by_cases hp : 0 < h.id
  · simp [hp, show ¬ h.id ≤ 0 by omega]
  · simp [hp, show h.id ≤ 0 by omega]

/-- The nonterminal that was introduced after `n` others. -/
def ofNonTerminalIndex (n : Nat) : Handle := ⟨n + 1⟩

/-- The terminal that was introduced after `n` others. -/
def ofTerminalIndex (n : Nat) : Handle := ⟨-(n + 1)⟩

/-- A handle is written as its number after `#`. -/
def render (h : Handle) : String := s!"#{h.id}"

end Handle

end Mixfix
