import Mixfix.Lexer
import Mixfix.Node
import Mixfix.Text.Window
import Mixfix.Traced

/-!
# Parsers

A parser reads a window from a position, with a state of the user's own. It gives a result with the
new state and the position after it, or none. Parsers are deterministic: a choice takes the first
alternative that succeeds, and no later failure comes back to it.
-/

namespace Mixfix

/-- A successful parse: the new state, the result, and the position after it in the window. -/
structure Parsed (σ : Type) where
  state : σ
  node : Node
  stop : Position

/-- A deterministic parser over a user state. -/
abbrev Parser (σ : Type) := σ → Window → Position → Traced Fault (Option (Parsed σ))

namespace Parser

variable {σ : Type}

/-- A success that takes nothing and leaves no trace in the result. -/
def nothing (s : σ) (w : Window) (p : Position) : Parsed σ := ⟨s, .empty (w.absolute p), p⟩

/-- Succeeds at the end of the window: nothing but blank characters may be left. -/
def endOfWindow : Parser σ := fun s w p => do
  if ← w.isDone p then return some (nothing s w p) else return none

/-- Runs a parser on a whole window, of which only blank characters may be left. -/
def complete (parser : Parser σ) (s : σ) (w : Window) : Traced Fault (Option (Parsed σ)) := do
  match ← parser s w .zero with
  | none => return none
  | some parsed => if ← w.isDone parsed.stop then return some parsed else return none

/-- A token where the lexer matches the current line. -/
def token (lexer : Lexer) (tag : String) : Parser σ := fun s w p => do
  if p.line < w.count then
    match ← lexer.lex (← w.line p.line) p.offset with
    | none => return none
    | some n =>
      let stop : Position := ⟨p.line, p.offset + n⟩
      return some ⟨s, .token ⟨tag, w.spanBetween p stop⟩, stop⟩
  else
    return none

/-- Takes nothing. -/
def empty : Parser σ := fun s w p => return some (nothing s w p)

/-- The results of every parser in turn, and where they end. -/
def inTurn : List (Parser σ) → σ → Window → Position →
    Traced Fault (Option (σ × List Node × Position))
  | [], s, _, p => return some (s, [], p)
  | parser :: parsers, s, w, p => do
    match ← parser s w p with
    | none => return none
    | some parsed =>
      match ← inTurn parsers parsed.state w parsed.stop with
      | none => return none
      | some (s, nodes, stop) => return some (s, parsed.node :: nodes, stop)

/-- A transparent tree over some results. -/
def gathered (w : Window) (start : Position) (result : σ × List Node × Position) : Parsed σ :=
  let (s, nodes, stop) := result
  ⟨s, .make .transparent (w.spanBetween start stop) nodes, stop⟩

/-- Every parser in turn, each with the state of the one before. -/
def seq (parts : List (Parser σ)) : Parser σ := fun s w p =>
  return (← inTurn parts s w p).map (gathered w p)

/-- The first parser that succeeds. -/
def choice : List (Parser σ) → Parser σ
  | [], _, _, _ => return none
  | parser :: parsers, s, w, p => do
    match ← parser s w p with
    | some parsed => return some parsed
    | none => choice parsers s w p

/-- The parser, or nothing. -/
def optional (parser : Parser σ) : Parser σ := choice [parser, empty]

/-- The results of a parser as often as it succeeds. A success that does not move forward is a
fault. -/
def iterate (parser : Parser σ) : (bound : Nat) → σ → Window → Position →
    Traced Fault (σ × List Node × Position)
  | 0, _, _, _ => throw .exhausted
  | bound + 1, s, w, p => do
    match ← parser s w p with
    | none => return (s, [], p)
    | some parsed =>
      if parsed.stop ≤ p then throw (.parserStalled p)
      let (s, nodes, stop) ← iterate parser bound parsed.state w parsed.stop
      return (s, parsed.node :: nodes, stop)

/-- Zero or more times in a row. A window has no more places than its extent and its end, and every
turn moves to a later one. -/
def many (parser : Parser σ) : Parser σ := fun s w p =>
  return some (gathered w p (← iterate parser (w.extent + 3) s w p))

/-- One or more times in a row. -/
def many1 (parser : Parser σ) : Parser σ := seq [parser, many parser]

/-- Puts the result under a tree of the given kind. -/
def withKind (kind : Kind) (parser : Parser σ) : Parser σ := fun s w p =>
  return (← parser s w p).map fun parsed =>
    { parsed with node := .make kind parsed.node.span [parsed.node] }

/-- Labels the result. -/
def tagged (tag : String) (parser : Parser σ) : Parser σ := withKind (.tagged tag) parser

/-- Leaves only the children of the result in its parent. -/
def transparent (parser : Parser σ) : Parser σ := withKind .transparent parser

/-- Leaves nothing in the parent. -/
def discard (parser : Parser σ) : Parser σ := fun s w p =>
  return (← parser s w p).map fun parsed =>
    { parsed with node := .make .discard parsed.node.span [] }

/-- Takes nothing, where the lexer matches the current line or, if `positive` is false, where it
does not. -/
def assertion (lexer : Lexer) (positive : Bool) : Parser σ := fun s w p => do
  let text ← w.rest ⟨p.line, 0⟩
  let found ← lexer.lex text p.offset
  return if found.isSome = positive then some (nothing s w p) else none

/-- Takes nothing, where the lexer matches. -/
def ahead (lexer : Lexer) : Parser σ := assertion lexer true

/-- Takes nothing, where the lexer does not match. -/
def notAhead (lexer : Lexer) : Parser σ := assertion lexer false

/-- Takes nothing, where only blank characters are left on the line. -/
def endOfLine : Parser σ := fun s w p => do
  if ← w.lineIsDone p then return some (nothing s w p) else return none

/-- Takes the blank rest of the line and the blank lines after it, up to the next line that is not
blank or the end of the window. -/
def lineBreak : Parser σ := fun s w p => do
  if p.line < w.count then
    if ← w.lineIsDone p then
      let stop : Position := ⟨(← w.skipBlank (p.line + 1)).getD w.count, 0⟩
      return some ⟨s, .make .discard (w.spanBetween p stop) [], stop⟩
  return none

/-- Runs the parser chosen by the state and the window at the time. -/
def deferred (resolve : σ → Window → Option (Parser σ)) : Parser σ := fun s w p =>
  match resolve s w with
  | none => return none
  | some parser => parser s w p

end Parser

end Mixfix
