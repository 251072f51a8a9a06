import Mixfix.Automaton.Collection
import Mixfix.Plan

/-!
# Candidates

A candidate is an action of a state with the terminals that select it. A shift is selected by its
terminal and any terminal its target acts on; a reduction on a possibly empty terminal also by the
terminals acted on once that terminal is shifted.
-/

namespace Mixfix

/-- An action and the terminals ahead that select it. -/
structure Candidate where
  lookahead : List Handle
  action : Action
  /-- The terminal that a shift moves over. -/
  terminal : Handle
  munch : Nat
  /-- The first terminal ahead is the one that the shift moves over. -/
  own : Bool
deriving DecidableEq

namespace Candidate

/-- The move of a candidate. -/
def leaf (c : Candidate) : Plan :=
  match c.action with
  | .shift target => .shift target c.terminal c.munch
  | .reduce rule => .reduce rule
  | .accept => .accept

/-- Both candidates make the same move. -/
def agreesWith (c d : Candidate) : Bool := c.action = d.action && c.munch = d.munch

/-- The candidate after its first terminal has been read. -/
def consume (c : Candidate) : Candidate := { c with lookahead := c.lookahead.tail, own := false }

/-- Adds a candidate in front of the first one whose action is not smaller. -/
def insertByAction (c : Candidate) : List Candidate → List Candidate
  | [] => [c]
  | d :: cs => if d.action < c.action then d :: insertByAction c cs else c :: d :: cs

/-- Orders candidates by action, and leaves those of one action in order. -/
def sortByAction (cs : List Candidate) : List Candidate := cs.foldr insertByAction []

end Candidate

namespace Automaton

/-- The states from which a rule leads to the state that reduces it. -/
def origins (a : Automaton) (rhs : List Handle) (state : Nat) : List Nat :=
  (List.range a.length).filter fun origin => a.follow? origin rhs = some state

/-- The actions on a terminal in the states that a reduction may lead to. -/
def actionsAfter (g : Grammar) (a : Automaton) (t : Handle) (state rule : Nat) :
    List (Nat × Action) :=
  match g.rules[rule]? with
  | none => []
  | some r =>
    (a.origins r.rhs state).flatMap fun origin =>
      match (a[origin]?).bind (·.next? r.lhs) with
      | none => []
      | some after =>
        (((a[after]?).bind (·.actions.lookup t)).getD []).map fun action => (after, action)

/-- The terminals acted on right after `t` is shifted, once `state` has reduced by `rule`: the
reduction may lead back to any state the rule could have started in, and further reductions on `t`
may follow. -/
def followers (g : Grammar) (a : Automaton) (state rule : Nat) (t : Handle) : List Handle :=
  let next (here : Nat × Nat) : List (Nat × Nat) :=
    (a.actionsAfter g t here.1 here.2).filterMap fun
      | (after, .reduce rule) => some (after, rule)
      | _ => none
  let reductions := reach next (a.length * g.rules.length + 1) (state, rule)
  Ascending.ofList <| reductions.flatMap fun here =>
    (a.actionsAfter g t here.1 here.2).flatMap fun
      | (_, .shift target) => (a[target]?).elim [] (·.terminals)
      | _ => []

/-- The terminal alone, or before each of the terminals that may come next. -/
def lookaheads (t : Handle) (next : List Handle) : List (List Handle) :=
  if next.isEmpty then [[t]] else next.map ([t, ·])

/-- The candidates for one action on a terminal. -/
def candidatesFor (g : Grammar) (a : Automaton) (state : Nat) (t : Handle) (action : Action) :
    List Candidate :=
  match action with
  | .shift target =>
    (lookaheads t ((a[target]?).elim [] (·.terminals))).map fun ahead => ⟨ahead, action, t, 1, true⟩
  | .reduce rule =>
    let next := if (g.registry.nonEmptyOf t).isSome then a.followers g state rule t else []
    (lookaheads t next).map fun ahead => ⟨ahead, action, t, 0, false⟩
  | .accept => [⟨[t], action, t, 0, false⟩]

/-- The candidates of a state, shifts first and then reductions by rule. -/
def candidates (g : Grammar) (a : Automaton) (state : Nat) : List Candidate :=
  Candidate.sortByAction <|
    ((a[state]?).elim [] (·.actions)).flatMap fun (t, actions) =>
      actions.flatMap (a.candidatesFor g state t)

end Automaton

end Mixfix
