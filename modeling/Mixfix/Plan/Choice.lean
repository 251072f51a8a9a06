import Mixfix.Forest
import Mixfix.Plan.Candidate

/-!
# From candidates to a plan

Candidates that make the same move need no reading. Otherwise a possibly empty terminal ahead is
taken both ways, as nothing and as its non-empty variant; then the next token is read, and each
class of terminals that may be mistaken for one another keeps the candidates it selects. Where a
candidate has nothing left to read, the conflict stays, with the first candidate as the best guess.
-/

namespace Mixfix

namespace Plan

/-- The pairs of numbers below `n`, the smaller first. -/
def pairs (n : Nat) : List (Nat × Nat) :=
  (List.range n).flatMap fun i => ((List.range n).filter (i < ·)).map (i, ·)

/-- Joins two terminals, by number, if they may be mistaken for one another. -/
def link (r : Registry) (terminals : List Handle) (f : Forest) (pair : Nat × Nat) :
    Option Forest := do
  let t ← terminals[pair.1]?
  let u ← terminals[pair.2]?
  if r.distinct t u then return f
  f.unite pair.1 pair.2

/-- Puts a terminal with its number into the class of its root. -/
def file (state : Forest × List (Nat × List Handle)) (t : Handle × Nat) :
    Option (Forest × List (Nat × List Handle)) := do
  let (root, f) ← state.1.find t.2
  return (f, Ascending.insertAt root t.1 state.2)

/-- Groups ascending terminals: pair by pair those that are not distinct are joined, and then each
terminal goes to its root. -/
def group? (r : Registry) (terminals : List Handle) : Option (List (List Handle)) := do
  let f ← (pairs terminals.length).foldlM (link r terminals) (Forest.roots terminals.length)
  let (_, classes) ← terminals.zipIdx.foldlM file (f, [])
  return classes.map (·.2)

/-- Terminals grouped by the chains of those that are not distinct, smallest member first. -/
def classes (r : Registry) (terminals : List Handle) : List (List Handle) :=
  (group? r (Ascending.ofList terminals)).getD []

/-- Adds a candidate unless it is there. -/
def pushNew (cs : List Candidate) (c : Candidate) : List Candidate :=
  if c ∈ cs then cs else cs ++ [c]

/-- The candidates without repetitions. -/
def unique (cs : List Candidate) : List Candidate := cs.foldl pushNew []

/-- The non-empty variant of the first terminal ahead, if that is possibly empty. -/
def emptyAhead (r : Registry) (c : Candidate) : Option Handle := c.lookahead.head?.bind r.nonEmptyOf

/-- Takes a possibly empty terminal ahead both ways. -/
def splitEmpty (r : Registry) (c : Candidate) : List Candidate :=
  match emptyAhead r c with
  | none => [c]
  | some nonEmpty =>
    [{ c.consume with munch := if c.own then 0 else c.munch },
      { c with lookahead := nonEmpty :: c.lookahead.tail }]

/-- The candidates that a class selects, after its token is read. -/
def routed (cs : List Candidate) (cls : List Handle) : List Candidate :=
  unique ((cs.filter fun c => c.lookahead.head?.any cls.contains).map Candidate.consume)

/-- The plan that selects one of the candidates, with at most `depth` decisions on a path. -/
def chooseWithin (r : Registry) : (depth : Nat) → List Candidate → Plan
  | _, [] => .error none
  | 0, _ :: _ => .error none
  | depth + 1, c :: cs =>
    if cs.all (c.agreesWith ·) then c.leaf
    else if (c :: cs).any fun d => (emptyAhead r d).isSome then
      chooseWithin r depth (unique ((c :: cs).flatMap (splitEmpty r)))
    else if (c :: cs).any (·.lookahead.isEmpty) then
      .error (some c.leaf)
    else
      .read ((classes r ((c :: cs).filterMap (·.lookahead.head?))).map fun cls =>
        (cls, chooseWithin r depth (routed (c :: cs) cls)))

/-- The plan that selects one of the candidates. Between two reads every possibly empty terminal
ahead is split once, so the square of the longest lookahead bounds the decisions. -/
def choose (r : Registry) (cs : List Candidate) : Plan :=
  let longest := (cs.map (·.lookahead.length)).foldl max 0
  chooseWithin r ((longest + 2) * (longest + 2)) cs

end Plan

namespace Automaton

/-- The plan of a state. -/
def planOf (g : Grammar) (a : Automaton) (state : Nat) : Plan :=
  Plan.choose g.registry (a.candidates g state)

/-- The plan of every state. -/
def plans (g : Grammar) (a : Automaton) : List Plan := (List.range a.length).map (a.planOf g)

/-- The plan of every state, with the event. -/
def compile (g : Grammar) (a : Automaton) {ε : Type} : Traced ε (List Plan) := do
  let plans := a.plans g
  Traced.emit (.planned plans.length (plans.filter (·.hasError)).length)
  return plans

end Automaton

end Mixfix
