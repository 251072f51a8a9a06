import Mixfix.Registry

/-!
# Rule bodies as expressions

A rule body may be written with sequences, alternatives, options and repetitions. The normal form
has no sequence directly inside a sequence, no alternatives directly inside alternatives, and
neither with exactly one part.
-/

namespace Mixfix

/-- A rule body. -/
inductive Expr where
  | nonTerminal (name : String)
  /-- A terminal, by its symbols. -/
  | terminal (symbols : List String)
  | seq (parts : List Expr)
  | alt (alternatives : List Expr)
  | opt (body : Expr)
  | star (body : Expr)
  | plus (body : Expr)
deriving Inhabited

namespace Expr

/-- The terminal with a name: its symbols are the parts between blank characters. -/
def named (name : String) : Expr := .terminal (symbolsOfName name)

/-- The parts that an expression puts into a sequence around it. -/
def asParts : Expr → List Expr
  | .seq parts => parts
  | e => [e]

/-- The alternatives that an expression puts among those around it. -/
def asAlternatives : Expr → List Expr
  | .alt alternatives => alternatives
  | e => [e]

/-- A sequence, or its only part. -/
def ofParts : List Expr → Expr
  | [e] => e
  | parts => .seq parts

/-- A choice, or its only alternative. -/
def ofAlternatives : List Expr → Expr
  | [e] => e
  | alternatives => .alt alternatives

mutual

/-- Flattens sequences inside sequences and alternatives inside alternatives, and opens those with
one part. -/
def normalize : Expr → Expr
  | .nonTerminal name => .nonTerminal name
  | .terminal symbols => .terminal symbols
  | .seq parts => ofParts (normalizeParts parts)
  | .alt alternatives => ofAlternatives (normalizeAlternatives alternatives)
  | .opt body => .opt body.normalize
  | .star body => .star body.normalize
  | .plus body => .plus body.normalize

/-- The parts of a sequence, in normal form. -/
def normalizeParts : List Expr → List Expr
  | [] => []
  | e :: parts => e.normalize.asParts ++ normalizeParts parts

/-- The alternatives of a choice, in normal form. -/
def normalizeAlternatives : List Expr → List Expr
  | [] => []
  | e :: alternatives => e.normalize.asAlternatives ++ normalizeAlternatives alternatives

end

end Expr

end Mixfix
