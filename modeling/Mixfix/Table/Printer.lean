import Mixfix.Table

/-!
# Printed tables

A row of cells for each state: its actions on every terminal, its plan, and its transitions over
every nonterminal.  How the cells are drawn as a grid is no part of this.
-/

namespace Mixfix.Table

/-- The names of the columns. -/
def header (t : Table) : Except Fault (List String) := do
  let r := t.grammar.registry
  let terminals ← (Handle.endOfInput :: r.terminalHandles).mapM r.name
  let nonTerminals ← r.nonTerminalHandles.mapM r.name
  return "#" :: terminals ++ "plan" :: nonTerminals

/-- The cells of a state. -/
def cells (t : Table) (id : Nat) (row : TableRow) : Except Fault (List String) := do
  let r := t.grammar.registry
  let actions := (Handle.endOfInput :: r.terminalHandles).map fun terminal =>
    "/".intercalate (((row.actions.lookup terminal).getD []).map Action.render)
  let gotos := r.nonTerminalHandles.map fun s => (row.goto? s).elim "" fun target => s!"{target}"
  return s!"{id}" :: actions ++ (← row.plan.display r) :: gotos

/-- The cells of the printed table, row by row. -/
def printed (t : Table) : Except Fault (List (List String)) := do
  let header ← t.header
  let rows ← t.rows.zipIdx.mapM fun (row, id) => t.cells id row
  return header :: rows

end Mixfix.Table
