import Mixfix.Plan.Choice

/-!
# Parse tables

The states of a grammar's automaton, each with its plan.
-/

namespace Mixfix

/-- A state with its plan. -/
structure TableRow extends State where
  plan : Plan

namespace TableRow

/-- The transitions over nonterminals. -/
def gotos (row : TableRow) : List (Handle × Nat) := row.edges.filter (·.1.isNonTerminal)

/-- The transition over a nonterminal. -/
def goto? (row : TableRow) (s : Handle) : Option Nat := row.gotos.lookup s

end TableRow

/-- A grammar with its compiled rows. -/
structure Table where
  grammar : Grammar
  rows : List TableRow

namespace Table

/-- The rows of some states and their plans. -/
def ofPlans (g : Grammar) (states : Automaton) (plans : List Plan) : Table :=
  ⟨g, states.zipWith (fun s plan => { s with plan : TableRow }) plans⟩

/-- The table of a grammar. -/
def ofGrammar (g : Grammar) : Table :=
  let states := Automaton.ofGrammar g
  ofPlans g states (states.plans g)

/-- The table of a grammar, with the events of its construction. -/
def build (g : Grammar) {ε : Type} : Traced ε Table := do
  let states ← Automaton.build g
  let plans ← states.compile g
  let table := ofPlans g states plans
  Traced.emit (.tabulated table.rows.length (table.rows.filter (·.hasConflict)).length)
  return table

theorem build_result (g : Grammar) (ε : Type) :
    (build g : Traced ε Table).result = .ok (ofGrammar g) := rfl

/-- The plan of a state. -/
def plan? (t : Table) (state : Nat) : Option Plan := (t.rows[state]?).map (·.plan)

/-- The transition of a state over a nonterminal. -/
def goto? (t : Table) (state : Nat) (s : Handle) : Option Nat :=
  (t.rows[state]?).bind (·.goto? s)

/-- The numbers of the rows that satisfy `p`. -/
def statesWhere (t : Table) (p : TableRow → Bool) : List Nat :=
  t.rows.zipIdx.filterMap fun (row, id) => if p row then some id else none

/-- The states where a terminal has more than one action. -/
def conflicts (t : Table) : List Nat := t.statesWhere (·.hasConflict)

/-- The states whose plan leaves a conflict. -/
def unresolved (t : Table) : List Nat := t.statesWhere (·.plan.hasError)

end Table

end Mixfix
