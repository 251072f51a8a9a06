import Mixfix.Fault

/-!
# Problems

A problem is a mistake in what the user declared: a symbol, a grammar, a set of terminal parsers or
a syntax. It may point at a span of the source.
-/

namespace Mixfix

/-- What is wrong with a declaration. -/
inductive Problem where
  | emptySymbolGroup
  | mixedSymbolGroup (symbols : List String)
  | unknownSymbol (name : String)
  | notATerminal (name : String)
  | notANonTerminal (name : String)
  | undefinedNonTerminal (name : String)
  | invalidEmptyPair (empty nonEmpty reason : String)
  | missingTerminalParser (name : String)
  | unknownCategory (name : String)
deriving DecidableEq

namespace Problem

/-- What the user is told. -/
def message : Problem → String
  | emptySymbolGroup => "a symbol group must contain at least one symbol"
  | mixedSymbolGroup symbols =>
    let group := " ".intercalate symbols
    s!"the symbol group [{group}] mixes terminal and nonterminal symbols"
  | unknownSymbol name => s!"unknown symbol {name}"
  | notATerminal name => s!"expected a terminal, got {name}"
  | notANonTerminal name => s!"expected a nonterminal, got {name}"
  | undefinedNonTerminal name => s!"the nonterminal {name} is used but has no rule"
  | invalidEmptyPair empty nonEmpty reason => s!"invalid empty pair {empty} / {nonEmpty}: {reason}"
  | missingTerminalParser name => s!"no sub-parser registered for terminal {name}"
  | unknownCategory name => s!"unknown category {name}"

end Problem

/-- Why a construction gave no result: the declarations are at fault, or the engine is. -/
inductive Failure where
  | problem (problem : Problem)
  | fault (fault : Fault)
deriving DecidableEq

instance : MonadLift (Except Problem) (Except Failure) := ⟨Except.mapError Failure.problem⟩

instance : MonadLift (Except Fault) (Except Failure) := ⟨Except.mapError Failure.fault⟩

end Mixfix
