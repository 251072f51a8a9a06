/-!
# Positions and spans

A position is a line and a byte offset within it. Positions are ordered by line first, then by
offset. A span is the stretch between two positions, the first included and the second not.
-/

namespace Mixfix

/-- A place in a text: a line and a byte offset within that line, both counted from zero. -/
structure Position where
  line : Nat
  offset : Nat
deriving DecidableEq, Inhabited

namespace Position

/-- The first place of a text. -/
def zero : Position := ⟨0, 0⟩

instance : LE Position :=
  ⟨fun a b => a.line < b.line ∨ a.line = b.line ∧ a.offset ≤ b.offset⟩

instance : LT Position :=
  ⟨fun a b => a.line < b.line ∨ a.line = b.line ∧ a.offset < b.offset⟩

theorem le_iff {a b : Position} :
    a ≤ b ↔ a.line < b.line ∨ a.line = b.line ∧ a.offset ≤ b.offset := Iff.rfl

theorem lt_iff {a b : Position} :
    a < b ↔ a.line < b.line ∨ a.line = b.line ∧ a.offset < b.offset := Iff.rfl

instance : DecidableLE Position := fun a b => decidable_of_iff _ (le_iff (a := a) (b := b)).symm

instance : DecidableLT Position := fun a b => decidable_of_iff _ (lt_iff (a := a) (b := b)).symm

instance : Min Position := ⟨fun a b => if a ≤ b then a else b⟩

instance : Max Position := ⟨fun a b => if a ≤ b then b else a⟩

/-- A position is written `line:offset`. -/
def render (p : Position) : String := s!"{p.line}:{p.offset}"

theorem le_refl (a : Position) : a ≤ a := by
  rw [le_iff]; omega

theorem le_trans {a b c : Position} (h : a ≤ b) (h' : b ≤ c) : a ≤ c := by
  rw [le_iff] at *; omega

end Position

/-- A stretch of the source text, `start` included and `stop` excluded. -/
structure Span where
  start : Position
  stop : Position
deriving DecidableEq, Inhabited

namespace Span

/-- The empty span at a position. -/
def point (p : Position) : Span := ⟨p, p⟩

/-- A span without extent. -/
def isEmpty (s : Span) : Bool := s.start = s.stop

/-- The smallest span covering both. -/
def cover (a b : Span) : Span := ⟨min a.start b.start, max a.stop b.stop⟩

/-- A span is written `start-stop`. -/
def render (s : Span) : String := s!"{s.start.render}-{s.stop.render}"

end Span

end Mixfix
