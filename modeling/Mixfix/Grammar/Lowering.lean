import Mixfix.Grammar
import Mixfix.Grammar.Expr
import Mixfix.Traced

/-!
# From expressions to rules

Every part of a rule body that is not a plain symbol gets a nonterminal of its own, transparent and
named after the rule it occurs in. Options and repetitions become rules of theirs.
-/

namespace Mixfix

/-- A grammar whose rule bodies are expressions. Terminals are named by their symbols. -/
structure ExprGrammar where
  start : String
  rules : List (String × Expr) := []
  distinct : List (List (List String)) := []
  emptyPairs : List (List String × List String) := []
  finals : List (List String) := []
  kinds : List (String × Kind) := []

/-- The rules made so far. -/
structure Lowering where
  registry : Registry := {}
  rules : List Rule := []
  kinds : List (Handle × Kind) := []
  /-- The nonterminal whose body is being lowered. -/
  current : String := ""
  /-- How many nonterminals were made. -/
  made : Nat := 0

namespace Lowering

/-- A construction that adds to a lowering, or meets a problem. -/
abbrev Build := StateT Lowering (Except Problem)

/-- The handle of a group of symbols. -/
def intern (symbols : List String) : Build Handle := fun l => do
  let (handle, registry) ← l.registry.intern symbols
  return (handle, { l with registry })

/-- The handle of a name that must be a nonterminal. -/
def nonTerminal (name : String) : Build Handle := do
  let handle ← intern [name]
  if handle.isNonTerminal then return handle else throw (.notANonTerminal name)

/-- The handle of a group that must be a terminal. -/
def terminal (symbols : List String) : Build Handle := do
  let handle ← intern symbols
  if handle.isTerminal then return handle else throw (.notATerminal (" ".intercalate symbols))

/-- Adds a rule. -/
def addRule (lhs : Handle) (rhs : List Handle) : Build Unit :=
  modify fun l => { l with rules := l.rules ++ [⟨lhs, rhs⟩] }

/-- Adds a rule for each body. -/
def addRules (lhs : Handle) (bodies : List (List Handle)) : Build Unit := bodies.forM (addRule lhs)

/-- A new transparent nonterminal, named after the current rule. -/
def fresh : Build Handle := do
  modify fun l => { l with made := l.made + 1 }
  let l ← get
  let handle ← nonTerminal s!"{l.current}~{l.made}"
  modify fun l => { l with kinds := l.kinds ++ [(handle, .transparent)] }
  return handle

/-- A nonterminal for one of the given bodies. -/
def choiceOf (bodies : Build (List (List Handle))) : Build Handle := do
  let n ← fresh
  addRules n (← bodies)
  return n

/-- A nonterminal for one of the given bodies, or nothing. -/
def optOf (bodies : Build (List (List Handle))) : Build Handle := do
  let n ← choiceOf bodies
  addRule n []
  return n

/-- A nonterminal for any number of the given bodies in a row. -/
def starOf (bodies : Build (List (List Handle))) : Build Handle := do
  let n ← fresh
  addRule n []
  addRules n ((← bodies).map (· ++ [n]))
  return n

/-- A nonterminal for one or more of the given bodies in a row. -/
def plusOf (bodies : Build (List (List Handle))) : Build Handle := do
  let n ← fresh
  let rest ← starOf bodies
  addRules n ((← bodies).map (· ++ [rest]))
  return n

mutual

/-- The bodies of the rules that stand for an expression in normal form. -/
def bodiesOf : Expr → Build (List (List Handle))
  | .alt es => sequences es
  | .seq parts => return [← symbols parts]
  | .nonTerminal name => return [[← nonTerminal name]]
  | .terminal group => return [[← terminal group]]
  | .opt body => return [[← optOf (bodiesOf body)]]
  | .star body => return [[← starOf (bodiesOf body)]]
  | .plus body => return [[← plusOf (bodiesOf body)]]

/-- One body for each expression. -/
def sequences : List Expr → Build (List (List Handle))
  | [] => return []
  | .seq parts :: es => do
    let body ← symbols parts
    return body :: (← sequences es)
  | e :: es => do
    let symbol ← symbolOf e
    return [symbol] :: (← sequences es)

/-- One symbol for each expression. -/
def symbols : List Expr → Build (List Handle)
  | [] => return []
  | e :: es => do
    let symbol ← symbolOf e
    return symbol :: (← symbols es)

/-- One symbol that stands for an expression. -/
def symbolOf : Expr → Build Handle
  | .alt es => choiceOf (sequences es)
  | .seq parts => choiceOf (do return [← symbols parts])
  | .nonTerminal name => nonTerminal name
  | .terminal group => terminal group
  | .opt body => optOf (bodiesOf body)
  | .star body => starOf (bodiesOf body)
  | .plus body => plusOf (bodiesOf body)

end

/-- The rules of one nonterminal. -/
def lowerRule (name : String) (body : Expr) : Build Unit := do
  let lhs ← nonTerminal name
  modify fun l => { l with current := name }
  addRules lhs (← bodiesOf body.normalize)

/-- All rules, after the start symbol. -/
def lowerRules (g : ExprGrammar) : Build Handle := do
  let start ← nonTerminal g.start
  g.rules.forM fun (name, body) => lowerRule name body
  return start

end Lowering

namespace ExprGrammar

/-- Interns groups of symbols in order. -/
def internAll (r : Registry) : List (List String) → Except Problem (List Handle × Registry)
  | [] => .ok ([], r)
  | group :: groups => do
    let (handle, r) ← r.intern group
    let (handles, r) ← internAll r groups
    return (handle :: handles, r)

/-- Declares a group of distinct terminals by their symbols. -/
def declareDistinct (r : Registry) (group : List (List String)) : Except Failure Registry := do
  let (handles, r) ← internAll r group
  r.declareDistinct handles

/-- Declares a possibly empty terminal and its non-empty variant by their symbols. -/
def declareEmptyPair (r : Registry) (pair : List String × List String) :
    Except Failure Registry := do
  let (empty, r) ← r.intern pair.1
  let (nonEmpty, r) ← r.intern pair.2
  r.declareEmptyPair empty nonEmpty

/-- Marks a final terminal by its symbols. -/
def markFinal (r : Registry) (group : List String) : Except Failure Registry := do
  let (t, r) ← r.intern group
  r.markFinal t

/-- The registry after every declaration: distinct groups first, then pairs, then finals. -/
def declareAll (g : ExprGrammar) (r : Registry) : Except Failure Registry := do
  let r ← g.distinct.foldlM declareDistinct r
  let r ← g.emptyPairs.foldlM declareEmptyPair r
  g.finals.foldlM markFinal r

/-- The declared kinds by handle, and the registry that knows their nonterminals. -/
def internKinds (r : Registry) :
    List (String × Kind) → Except Problem (List (Handle × Kind) × Registry)
  | [] => .ok ([], r)
  | (name, kind) :: kinds => do
    let (handle, r) ← r.internSymbol name
    let (rest, r) ← internKinds r kinds
    return ((handle, kind) :: rest, r)

/-- The plain grammar of an expression grammar. -/
def lower (g : ExprGrammar) : Traced Failure Grammar := do
  let (start, l) ← (Lowering.lowerRules g).run {}
  let r ← g.declareAll l.registry
  let (kinds, r) ← internKinds r g.kinds
  Traced.emit (.lowered l.rules.length)
  Grammar.ofRules r start l.rules (l.kinds ++ kinds)

end ExprGrammar

end Mixfix
