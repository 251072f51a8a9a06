import Mixfix.Node
import Mixfix.Registry

/-!
# Context-free grammars

A grammar is a list of rules over handles. Rule 0 is always the augmented rule, from `Start'` to
the start symbol.
-/

namespace Mixfix

/-- A rule of a context-free grammar. -/
structure Rule where
  lhs : Handle
  rhs : List Handle
deriving DecidableEq

/-- A rule is written with its handles. -/
def Rule.render (rule : Rule) : String :=
  rule.lhs.render ++ " ->" ++ String.join (rule.rhs.map fun s => " " ++ s.render)

/-- The nonterminal of the augmented rule. -/
def augmentedStart : String := "Start'"

/-- A context-free grammar. -/
structure Grammar where
  registry : Registry
  rules : List Rule
  start : Handle
  /-- How trees appear in results, for the nonterminals that say so; the first entry counts. -/
  kinds : List (Handle × Kind)

namespace Grammar

/-- Refuses a rule of a terminal, and a nonterminal that has no rule. -/
def checkRule (registry : Registry) (rules : List Rule) (rule : Rule) : Except Failure Unit := do
  if !rule.lhs.isNonTerminal then
    throw (.problem (.notANonTerminal (← registry.name rule.lhs)))
  match rule.rhs.find? fun s => s.isNonTerminal && !rules.any (·.lhs == s) with
  | some s => throw (.problem (.undefinedNonTerminal (← registry.name s)))
  | none => return ()

/-- The grammar of some rules, after the augmented rule. A later kind of a nonterminal replaces an
earlier one; the augmented nonterminal is always transparent. -/
def ofRules (registry : Registry) (start : Handle) (rules : List Rule)
    (kinds : List (Handle × Kind)) : Except Failure Grammar := do
  if !start.isNonTerminal then
    throw (.problem (.notANonTerminal (← registry.name start)))
  let (augmented, registry) ← registry.internSymbol augmentedStart
  let rules := ⟨augmented, [start]⟩ :: rules
  rules.forM (checkRule registry rules)
  return ⟨registry, rules, start, (augmented, .transparent) :: kinds.reverse⟩

/-- The number of symbols on the right-hand sides of the rules. -/
def size (g : Grammar) : Nat := (g.rules.flatMap (·.rhs)).length

/-- The right-hand side of a rule; empty for a rule that is not there. -/
def rhs (g : Grammar) (id : Nat) : List Handle := (g.rules[id]?).elim [] (·.rhs)

/-- The numbers of the rules of a nonterminal, in order. -/
def rulesOf (g : Grammar) (lhs : Handle) : List Nat :=
  g.rules.zipIdx.filterMap fun (rule, id) => if rule.lhs = lhs then some id else none

/-- How the trees of a nonterminal appear in results: as declared, or tagged with its name. -/
def kind (g : Grammar) (lhs : Handle) : Except Fault Kind :=
  match g.kinds.lookup lhs with
  | some kind => .ok kind
  | none => (g.registry.name lhs).map .tagged

/-- Every terminal that a rule uses, in order of first use. -/
def terminals (g : Grammar) : List Handle :=
  ((g.rules.flatMap (·.rhs)).filter (·.isTerminal)).foldl
    (fun seen t => if seen.contains t then seen else seen ++ [t]) []

/-- A rule with symbol names. -/
def renderRule (g : Grammar) (rule : Rule) : Except Fault String := do
  let rhs ← rule.rhs.mapM g.registry.name
  let lhs ← g.registry.name rule.lhs
  return lhs ++ " -> " ++ if rhs.isEmpty then "ε" else " ".intercalate rhs

/-- The rules with their numbers, one line each. -/
def render (g : Grammar) : Except Fault String := do
  let lines ← g.rules.mapM g.renderRule
  return String.join (lines.mapIdx fun id line => s!"{id}: {line}\n")

end Grammar

end Mixfix
