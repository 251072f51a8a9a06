/-!
# Groups of numbers as trees of a forest

Every number has a parent, and the roots are their own parents; two numbers are in one group if they
have one root. To join two groups, one root is hung on the other. A climb to a root hangs every
number it stops at on its grandparent, so that later climbs are shorter.

Nothing comes of a number that the forest does not have, or of a climb with more turns than there
are numbers.
-/

namespace Mixfix

/-- A forest over the numbers below some number. -/
structure Forest where
  /-- The parent of every number. -/
  parents : List Nat

namespace Forest

/-- Every number below `n` is a root. -/
def roots (n : Nat) : Forest := ⟨List.range n⟩

/-- How many numbers there are. -/
def size (f : Forest) : Nat := f.parents.length

/-- The parent of a number. -/
def parent? (f : Forest) (i : Nat) : Option Nat := f.parents[i]?

/-- Gives a number another parent. -/
def hang (f : Forest) (i p : Nat) : Option Forest :=
  if i < f.size then some ⟨f.parents.set i p⟩ else none

/-- Climbs to the root of a number: the root, and the forest after the climb. -/
def climb : (bound : Nat) → Forest → Nat → Option (Nat × Forest)
  | 0, _, _ => none
  | bound + 1, f, i => do
    let p ← f.parent? i
    if p = i then return (i, f)
    let grandparent ← f.parent? p
    let f ← f.hang i grandparent
    climb bound f grandparent

/-- The root of a number, and the forest after the climb. -/
def find (f : Forest) (i : Nat) : Option (Nat × Forest) := climb f.size f i

/-- Joins the groups of two numbers: the greater of their roots is hung on the smaller. -/
def unite (f : Forest) (i j : Nat) : Option Forest := do
  let (root, f) ← f.find i
  let (root', f) ← f.find j
  f.hang (max root root') (min root root')

end Forest

end Mixfix
