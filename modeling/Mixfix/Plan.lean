import Mixfix.Automaton.Action
import Mixfix.Registry

/-!
# Plans

A plan tells the executor what to do in a state: a move, a token to read before deciding, or an
unresolved conflict with its best guess.

* `Plan.hasError`: some path through the reads ends in an unresolved conflict.
* `Plan.isVague`: some read cannot tell all its terminals apart.
-/

namespace Mixfix

/-- How a state decides on its next move. -/
inductive Plan where
  /-- Goes to `target` over `terminal`, taking one token, or none if `munch` is zero. -/
  | shift (target : Nat) (terminal : Handle) (munch : Nat)
  | reduce (rule : Nat)
  | accept
  /-- Reads the next token and follows the branch whose class has it. -/
  | read (branches : List (List Handle × Plan))
  /-- A conflict that no read resolves, with the best guess if there is one. -/
  | error (guess : Option Plan)

namespace Plan

mutual

/-- A conflict is left, on some path of reads. -/
def hasError : Plan → Bool
  | .error _ => true
  | .read branches => someError branches
  | .shift .. | .reduce _ | .accept => false

/-- A conflict is left in some branch. -/
def someError : List (List Handle × Plan) → Bool
  | [] => false
  | (_, plan) :: branches => plan.hasError || someError branches

end

mutual

/-- Some read has a class of more than one terminal. -/
def isVague : Plan → Bool
  | .read branches => someVague branches
  | .error (some guess) => guess.isVague
  | .error none | .shift .. | .reduce _ | .accept => false

/-- Some branch has a class of more than one terminal, or a vague plan. -/
def someVague : List (List Handle × Plan) → Bool
  | [] => false
  | (cls, plan) :: branches => decide (1 < cls.length) || plan.isVague || someVague branches

end

/-- The branch whose class has the terminal. -/
def branch? (branches : List (List Handle × Plan)) (t : Handle) : Option Plan :=
  (branches.find? (·.1.contains t)).map (·.2)

mutual

/-- A plan as text, given the names of the terminals. -/
def renderWith (name : Handle → Except Fault String) : Plan → Except Fault String
  | .shift target _ munch =>
    .ok (if munch = 1 then s!"s{target}" else s!"s{target}[{munch}]")
  | .reduce rule => .ok s!"r{rule}"
  | .accept => .ok "acc"
  | .read branches => do
    return "read\x7b" ++ "; ".intercalate (← renderBranches name branches) ++ "\x7d"
  | .error none => .ok "err"
  | .error (some guess) => do return "err(" ++ (← renderWith name guess) ++ ")"

/-- Each branch as its class and its plan. -/
def renderBranches (name : Handle → Except Fault String) :
    List (List Handle × Plan) → Except Fault (List String)
  | [] => .ok []
  | (cls, plan) :: branches => do
    let names ← cls.mapM name
    let text ← renderWith name plan
    return ("|".intercalate names ++ " => " ++ text) :: (← renderBranches name branches)

end

/-- A plan with symbol names. -/
def display (plan : Plan) (r : Registry) : Except Fault String := plan.renderWith r.name

/-- A plan with handles. -/
def render (plan : Plan) : Except Fault String := plan.renderWith fun h => .ok h.render

end Plan

end Mixfix
