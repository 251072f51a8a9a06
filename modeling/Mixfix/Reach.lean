/-!
# Reachability by a work list

Everything that can be reached from a start through a successor function, each element once, in the
order of discovery. The bound limits the number of elements opened; the number of all elements is
enough.
-/

namespace Mixfix

variable {α : Type} [DecidableEq α]

/-- Adds the elements that are not there yet, once each and in order. -/
def addNew (seen : List α) : List α → List α
  | [] => []
  | a :: others => if a ∈ seen then addNew seen others else a :: addNew (a :: seen) others

/-- Opens the pending elements one by one, first in first. -/
def reachFrom (next : α → List α) : (bound : Nat) → (seen pending : List α) → List α
  | 0, seen, _ => seen
  | _ + 1, seen, [] => seen
  | bound + 1, seen, a :: pending =>
    let found := addNew seen (next a)
    reachFrom next bound (seen ++ found) (found ++ pending)

/-- The elements reachable from `a`, with `a` itself first. -/
def reach (next : α → List α) (bound : Nat) (a : α) : List α := reachFrom next bound [a] [a]

/-- Applies a function until it changes nothing, at most `n` times. -/
def settle (f : α → α) : (n : Nat) → α → α
  | 0, a => a
  | n + 1, a =>
    let b := f a
    if b = a then a else settle f n b

end Mixfix
