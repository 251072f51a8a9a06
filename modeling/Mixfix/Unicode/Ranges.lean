/-!
# Ranges of code points

A character class is an ascending list of closed ranges of code points. The table modules beside
this one hold one property each.
-/

namespace Mixfix

/-- Closed ranges of code points, ascending and apart from each other. -/
abbrev Ranges := List (Nat × Nat)

/-- Some range holds the character. The search stops at the first range above it. -/
def Ranges.contains : Ranges → Char → Bool
  | [], _ => false
  | (lo, hi) :: rest, c =>
    if c.toNat < lo then false else decide (c.toNat ≤ hi) || Ranges.contains rest c

end Mixfix
