import Mixfix.Grammar

/-!
# First terminals

The nonterminals that derive nothing, and the terminals that can begin what a symbol derives. Both
are found together: the rules are applied one after the other, each to what the rules before it have
left, until a pass over them changes nothing.
-/

namespace Mixfix

/-- What a grammar's symbols can begin with. -/
structure First where
  /-- The nonterminals that derive the empty word. -/
  nullable : List Handle
  /-- The terminals each nonterminal can begin with. -/
  table : List (Handle × List Handle)

namespace First

/-- The symbol derives the empty word. -/
def isNullable (f : First) (s : Handle) : Bool := s.isNonTerminal && f.nullable.contains s

/-- The terminals a symbol can begin with. -/
def starts (f : First) (s : Handle) : List Handle :=
  if s.isTerminal then [s] else (f.table.lookup s).getD []

/-- The terminals that a row of symbols can begin with. -/
def startsOfAll (f : First) : List Handle → List Handle
  | [] => []
  | s :: rest =>
    if f.isNullable s then Ascending.union (f.starts s) (f.startsOfAll rest) else f.starts s

/-- The terminals that a row of symbols, followed by one of the lookaheads, can begin with. -/
def startsBefore (f : First) (symbols lookaheads : List Handle) : List Handle :=
  if lookaheads.isEmpty then []
  else if symbols.all f.isNullable then Ascending.union (f.startsOfAll symbols) lookaheads
  else f.startsOfAll symbols

/-- What is known after a rule is applied, and whether anything has changed: a flag that is raised
stays raised. -/
def applyRule (acc : First × Bool) (rule : Rule) : First × Bool :=
  let (f, changed) := acc
  let terminals := f.startsOfAll rule.rhs
  let vanishes := rule.rhs.all f.isNullable
  let before := (f.table.lookup rule.lhs).getD []
  let table := Ascending.unionAt rule.lhs terminals f.table
  let after := (table.lookup rule.lhs).getD []
  let changed := changed || after.length != before.length
  if vanishes && !f.nullable.contains rule.lhs then
    (⟨Ascending.insert rule.lhs f.nullable, table⟩, true)
  else
    (⟨f.nullable, table⟩, changed)

/-- Applies every rule once, with the flag down at first. -/
def pass (rules : List Rule) (f : First) : First × Bool := rules.foldl applyRule (f, false)

/-- Applies the rules until a pass leaves the flag down; gives nothing if that takes more than
`turns` passes. -/
def fill (rules : List Rule) : (turns : Nat) → First → Option First
  | 0, _ => none
  | turns + 1, f =>
    match pass rules f with
    | (f, true) => fill rules turns f
    | (f, false) => some f

/-- A number of passes after which the first terminals of a grammar are found: every pass but the
last one finds one more. -/
def turns (g : Grammar) : Nat := g.rules.length * g.size + g.rules.length + 1

/-- The first terminals of a grammar. -/
def ofGrammar (g : Grammar) : First := (fill g.rules (turns g) ⟨[], []⟩).getD ⟨[], []⟩

end First

end Mixfix
