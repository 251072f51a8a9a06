import Mixfix.Reach
import Mixfix.Traced

/-!
# Acyclic graphs under edge insertion

Every vertex has a level, no edge leads to a lower level, and every vertex knows its predecessors on
its own level. An edge `u → v` that does not go up a level is checked by two searches: backward from
`u` on its level, up to a budget of edges, and forward from `v` while levels rise. An edge that
would close a cycle is refused and changes nothing.
-/

namespace Mixfix

/-- A vertex: its label, its level, the vertices its edges lead to, and its predecessors on the same
level. -/
structure Vertex (α : Type) where
  label : α
  level : Nat
  outgoing : List Nat
  incoming : List Nat

/-- A graph with levels. Vertices are numbered in the order of their addition. -/
structure LevelGraph (α : Type) where
  vertices : List (Vertex α) := []
  edgeCount : Nat := 0

namespace LevelGraph

variable {α : Type} [DecidableEq α]

/-- The number of a vertex. -/
def indexOf? (d : LevelGraph α) (a : α) : Option Nat := d.vertices.findIdx? (·.label = a)

/-- The vertex is in the graph. -/
def contains (d : LevelGraph α) (a : α) : Bool := (d.indexOf? a).isSome

/-- Adds a vertex if it is new, on level 1, and gives its number. -/
def addVertex (d : LevelGraph α) (a : α) : Nat × LevelGraph α :=
  match d.indexOf? a with
  | some i => (i, d)
  | none => (d.vertices.length, { d with vertices := d.vertices ++ [⟨a, 1, [], []⟩] })

/-- The level of a vertex by number. -/
def levelAt (d : LevelGraph α) (i : Nat) : Nat := (d.vertices[i]?).elim 0 (·.level)

/-- The targets of a vertex's edges, by number. -/
def outgoingAt (d : LevelGraph α) (i : Nat) : List Nat := (d.vertices[i]?).elim [] (·.outgoing)

/-- The predecessors of a vertex on its level, by number. -/
def incomingAt (d : LevelGraph α) (i : Nat) : List Nat := (d.vertices[i]?).elim [] (·.incoming)

/-- The level of a vertex. -/
def level? (d : LevelGraph α) (a : α) : Option Nat := (d.indexOf? a).map d.levelAt

/-- The edge is in the graph. -/
def hasEdge (d : LevelGraph α) (a b : α) : Bool :=
  match d.indexOf? a, d.indexOf? b with
  | some u, some v => (d.outgoingAt u).contains v
  | _, _ => false

/-- The labels of the vertices reachable from one, itself left out. -/
def successors (d : LevelGraph α) (a : α) : List α :=
  match d.indexOf? a with
  | none => []
  | some i =>
    ((reach d.outgoingAt d.vertices.length i).filter (· ≠ i)).filterMap fun j =>
      (d.vertices[j]?).map (·.label)

/-- Adds an edge that closes no cycle, between vertices whose levels allow it. -/
def link (d : LevelGraph α) (u v : Nat) : LevelGraph α :=
  let level := d.levelAt u == d.levelAt v
  { vertices := d.vertices.mapIdx fun i x =>
      let x := if i = u then { x with outgoing := x.outgoing ++ [v] } else x
      if i = v && level && !x.incoming.contains u then { x with incoming := x.incoming ++ [u] }
      else x
    edgeCount := d.edgeCount + 1 }

/-- What a backward search finds. -/
inductive Backward where
  /-- The target reaches the source. -/
  | cycle
  /-- The budget is spent: the target goes one level above the source. -/
  | spent
  /-- These vertices, and no others, reach the source on its level. -/
  | visited (vertices : List Nat)

/-- Goes through predecessors on one level, looking for `v`. Every edge costs one of the budget. -/
def backwardOver (v : Nat) : List Nat → (visited found : List Nat) → (budget : Nat) →
    Backward ⊕ (List Nat × List Nat × Nat)
  | [], visited, found, budget => .inr (visited, found, budget)
  | w :: others, visited, found, budget =>
    if w = v then .inl .cycle
    else if budget ≤ 1 then .inl .spent
    else if visited.contains w then backwardOver v others visited found (budget - 1)
    else backwardOver v others (visited ++ [w]) (w :: found) (budget - 1)

/-- The backward search: opens the pending vertices, the last found first. -/
def searchBackward (d : LevelGraph α) (v : Nat) : (bound : Nat) → (visited pending : List Nat) →
    (budget : Nat) → Backward
  | 0, visited, _, _ => .visited visited
  | _ + 1, visited, [], _ => .visited visited
  | bound + 1, visited, x :: pending, budget =>
    match backwardOver v (d.incomingAt x) visited [] budget with
    | .inl stop => stop
    | .inr (visited, found, budget) =>
      searchBackward d v bound visited (found ++ pending) budget

/-- Changes of vertices that are made only if the edge is accepted: new levels, and new predecessors
on the new level. -/
structure Draft where
  levels : List (Nat × Nat)
  incoming : List (Nat × List Nat)

namespace Draft

/-- Replaces the value of a key. -/
def set {β : Type} (k : Nat) (b : β) (m : List (Nat × β)) : List (Nat × β) :=
  (k, b) :: m.filter (·.1 ≠ k)

/-- The level of a vertex under the draft. -/
def levelAt (t : Draft) (d : LevelGraph α) (i : Nat) : Nat := (t.levels.lookup i).getD (d.levelAt i)

/-- The predecessors of a vertex on its level under the draft. -/
def incomingAt (t : Draft) (d : LevelGraph α) (i : Nat) : List Nat :=
  (t.incoming.lookup i).getD (d.incomingAt i)

end Draft

/-- Goes over the edges of `x`, raising what they lead to up to the level of `x`. Gives the draft
and the raised vertices, or nothing if an edge leads into the backward set. -/
def forwardOver (d : LevelGraph α) (backward : List Nat) (x level : Nat) :
    List Nat → Draft → List Nat → Option (Draft × List Nat)
  | [], t, raised => some (t, raised)
  | y :: others, t, raised =>
    if backward.contains y then none
    else
      let current := t.levelAt d y
      if current < level then
        forwardOver d backward x level others
          ⟨Draft.set y level t.levels, Draft.set y [x] t.incoming⟩ (y :: raised)
      else if current = level then
        let known := t.incomingAt d y
        forwardOver d backward x level others
          ⟨t.levels, Draft.set y (if known.contains x then known else known ++ [x]) t.incoming⟩
          raised
      else
        forwardOver d backward x level others t raised

/-- The forward search: opens the pending vertices, the last raised first. Every vertex is raised to
the same level, so it is opened once at most. -/
def searchForward (d : LevelGraph α) (backward : List Nat) : (bound : Nat) → (pending : List Nat) →
    Draft → Option Draft
  | 0, _, t => some t
  | _ + 1, [], t => some t
  | bound + 1, x :: pending, t =>
    match forwardOver d backward x (t.levelAt d x) (d.outgoingAt x) t [] with
    | none => none
    | some (t, raised) => searchForward d backward bound (raised ++ pending) t

/-- Makes the changes of a draft. -/
def apply (d : LevelGraph α) (t : Draft) : LevelGraph α :=
  { d with
    vertices := d.vertices.mapIdx fun i x =>
      { x with level := t.levelAt d i, incoming := t.incomingAt d i } }

/-- Raises `v` to a level and whatever lies after it, unless that leads into the backward set. -/
def raise (d : LevelGraph α) (v level : Nat) (backward : List Nat) : Option (LevelGraph α) :=
  (searchForward d backward (d.vertices.length + 1) [v] ⟨[(v, level)], [(v, [])]⟩).map d.apply

/-- The graph ready for the edge from `u` to `v`, whose levels do not rise along it; none if the
edge would close a cycle. -/
def prepare (d : LevelGraph α) (budget u v : Nat) : Option (LevelGraph α) :=
  let level := d.levelAt u
  match d.searchBackward v (d.vertices.length + 1) [u] [u] budget with
  | .cycle => none
  | .spent => d.raise v (level + 1) [u]
  | .visited backward => if d.levelAt v < level then d.raise v level backward else some d

/-- Adds an edge and its vertices, with a budget for the backward search. Tells whether the edge is
in the graph; an edge that would close a cycle is refused, and only its vertices are added. -/
def addEdgeWithin (d : LevelGraph α) (budget : LevelGraph α → Nat) (a b : α) :
    Bool × LevelGraph α :=
  let (u, d) := d.addVertex a
  let (v, d) := d.addVertex b
  if u = v then (false, d)
  else if (d.outgoingAt u).contains v then (true, d)
  else if d.levelAt u < d.levelAt v then (true, d.link u v)
  else
    match d.prepare (budget d) u v with
    | none => (false, d)
    | some d => (true, d.link u v)

/-- The largest number up to `n` that satisfies `p`, or zero. -/
def largest (p : Nat → Bool) : Nat → Nat
  | 0 => 0
  | n + 1 => if p (n + 1) then n + 1 else largest p n

/-- The usual budget: the square root of the number of edges, rounded down, or the largest number
whose cube is below the square of the number of vertices, whichever is less, and at least one. -/
def budget (d : LevelGraph α) : Nat :=
  let m := d.edgeCount
  let n := d.vertices.length
  max 1 (min (largest (fun k => k * k ≤ m) m) (largest (fun k => k * k * k < n * n) n))

/-- Adds an edge and its vertices, with the usual budget. -/
def addEdge (d : LevelGraph α) (a b : α) : Bool × LevelGraph α := d.addEdgeWithin budget a b

/-- Adds an edge with the usual budget. The refusal of an edge between two vertices is an event. -/
def offerEdge (d : LevelGraph α) (a b : α) {ε : Type} : Traced ε (Bool × LevelGraph α) := do
  let (accepted, d) := d.addEdge a b
  if !accepted && a ≠ b then Traced.emit .cycleRefused
  return (accepted, d)

end LevelGraph

end Mixfix
