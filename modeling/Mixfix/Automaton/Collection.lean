import Mixfix.Automaton.Action
import Mixfix.Automaton.Item
import Mixfix.Traced

/-!
# The canonical LR(1) collection

State 0 is the closure of the augmented item. The other states are the sets of items reached from it
over one symbol after another, numbered in the order of discovery; equal sets are one state.
-/

namespace Mixfix

/-- A state of the automaton. -/
structure State where
  items : ItemSet
  /-- The transitions, by ascending symbol. -/
  edges : List (Handle × Nat)
  /-- The symbol of every transition into this state; the first state has none. -/
  entry : Option Handle
  /-- The actions, by ascending terminal. -/
  actions : List (Handle × List Action)

namespace State

/-- What the items and transitions of a state allow on each terminal. -/
def actionsOf (g : Grammar) (items : ItemSet) (edges : List (Handle × Nat)) :
    List (Handle × List Action) :=
  let reductions := (items.filter (·.isComplete g)).foldl
    (fun actions item =>
      Ascending.insertAt item.lookahead
        (if item.rule = 0 then Action.accept else .reduce item.rule) actions)
    []
  (edges.filter (·.1.isTerminal)).foldl
    (fun actions edge => Ascending.insertAt edge.1 (.shift edge.2) actions) reductions

/-- The transition over a symbol. -/
def next? (s : State) (symbol : Handle) : Option Nat := s.edges.lookup symbol

/-- Some terminal has more than one action. -/
def hasConflict (s : State) : Bool := s.actions.any fun (_, actions) => 1 < actions.length

/-- The terminals with an action. -/
def terminals (s : State) : List Handle := s.actions.map (·.1)

end State

/-- The states of a grammar. -/
abbrev Automaton := List State

namespace Automaton

/-- The sets found so far with the symbols they were entered by, and the transitions of those that
were opened. The next set to open is the first without transitions. -/
structure Survey where
  sets : List (ItemSet × Option Handle)
  edges : List (List (Handle × Nat))

namespace Survey

/-- The number of a set, which joins the others if it is new. -/
def place (sets : List (ItemSet × Option Handle)) (items : ItemSet) (symbol : Handle) :
    Nat × List (ItemSet × Option Handle) :=
  match sets.findIdx? (·.1 == items) with
  | some i => (i, sets)
  | none => (sets.length, sets ++ [(items, some symbol)])

/-- The transitions of a set over some symbols. -/
def transitions (g : Grammar) (first : First) (items : ItemSet) :
    List Handle → List (ItemSet × Option Handle) →
      List (Handle × Nat) × List (ItemSet × Option Handle)
  | [], sets => ([], sets)
  | symbol :: symbols, sets =>
    let (target, sets) := place sets (items.goto g first symbol) symbol
    let (edges, sets) := Survey.transitions g first items symbols sets
    ((symbol, target) :: edges, sets)

/-- Opens the sets in order until none is left. -/
def run (g : Grammar) (first : First) : (bound : Nat) → Survey → Survey
  | 0, survey => survey
  | bound + 1, survey =>
    match survey.sets[survey.edges.length]? with
    | none => survey
    | some (items, _) =>
      let (edges, sets) := Survey.transitions g first items (items.expected g) survey.sets
      run g first bound ⟨sets, survey.edges ++ [edges]⟩

end Survey

/-- The number of items a grammar can have: a place for the dot, and a terminal or the end. -/
def itemCount (g : Grammar) : Nat := (g.size + g.rules.length) * (g.size + 1)

/-- The canonical collection. -/
def ofGrammar (g : Grammar) : Automaton :=
  let first := First.ofGrammar g
  let start := ItemSet.closure g first [⟨0, 0, .endOfInput⟩]
  let survey := Survey.run g first (Nat.pow 2 (itemCount g)) ⟨[(start, none)], []⟩
  survey.sets.zipWith (fun (items, entry) edges =>
    ⟨items, edges, entry, State.actionsOf g items edges⟩) survey.edges

/-- The canonical collection, with its event. -/
def build (g : Grammar) {ε : Type} : Traced ε Automaton := do
  let states := ofGrammar g
  Traced.emit (.collected states.length)
  return states

/-- The state reached from one over a row of symbols. -/
def follow? (a : Automaton) : Nat → List Handle → Option Nat
  | i, [] => some i
  | i, symbol :: symbols => do follow? a (← (← a[i]?).next? symbol) symbols

end Automaton

end Mixfix
