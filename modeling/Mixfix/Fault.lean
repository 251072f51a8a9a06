import Mixfix.Handle
import Mixfix.Position

/-!
# Faults

A fault is the breach of an internal contract: it stops the operation under way and is no answer
about the input. Most faults name what went wrong; those of plain indexing have no text.
-/

namespace Mixfix

/-- Why an operation could not go on. -/
inductive Fault where
  /-- A handle that the registry never issued. -/
  | unknownHandle (handle : Handle)
  /-- A repeated lexer matched nothing. -/
  | lexerStalled (offset : Nat)
  /-- A repeated parser did not move forward. -/
  | parserStalled (position : Position)
  /-- A section did not move forward. -/
  | sectionStalled (position : Position)
  /-- A plan asks for a terminal that has no parser. -/
  | unboundTerminal (name : String)
  /-- A reduction needs more of the stack than there is. -/
  | shortStack (rule : Nat)
  /-- The stack of states is empty. -/
  | emptyStack
  /-- A state has no transition over the nonterminal just reduced. -/
  | missingGoto (state : Nat) (name : String)
  /-- The input was accepted with other than one result on the stack. -/
  | malformedStack
  /-- A byte range that is no range of whole characters of its line. -/
  | brokenSlice
  /-- A line that the window does not have. -/
  | missingLine
  /-- A rule that the grammar does not have. -/
  | missingRule
  /-- A state that the table does not have. -/
  | missingState
  /-- The step limit was reached. -/
  | exhausted
deriving DecidableEq

namespace Fault

/-- What happened, for the faults that say so. -/
def detail : Fault → Option String
  | unknownHandle h => some s!"handle {h.render} resolves to no symbol"
  | lexerStalled n => some s!"repeated lexer made no progress at offset {n}"
  | parserStalled p => some s!"repeated parser made no progress at {p.render}"
  | sectionStalled p => some s!"section made no progress at {p.render}"
  | unboundTerminal name => some s!"no parser for terminal {name}"
  | shortStack rule => some s!"stack too short to reduce by rule {rule}"
  | emptyStack => some "empty state stack"
  | missingGoto state name => some s!"no goto from state {state} over {name}"
  | malformedStack => some "accepting with a malformed stack"
  | brokenSlice | missingLine | missingRule | missingState | exhausted => none

/-- The text of a fault. -/
def message (f : Fault) : Option String := f.detail.map ("internal error: " ++ ·)

end Fault

end Mixfix
