import Mixfix.Ascending
import Mixfix.Parser

/-!
# Terminals of declared syntax

Besides the literal texts of its forms, declared syntax has parentheses, variables and blanks. The
parsers of the terminals exclude each other: a literal yields to a longer one, a variable to every
literal, and blanks to the end of the window.
-/

namespace Mixfix

/-- A terminal of declared syntax. -/
inductive Terminal where
  | literal (text : String)
  | identifier
  | blank
  | optionalBlank
  | endOfInput
deriving DecidableEq

namespace Terminal

/-- The name of a literal's terminal. -/
def literalKey (text : String) : String := "'" ++ text ++ "'"

/-- The name of a terminal. -/
def key : Terminal → String
  | literal text => literalKey text
  | identifier => "var"
  | blank => "ws"
  | optionalBlank => "ws?"
  | endOfInput => "$"

/-- The literals with the parentheses, ascending. -/
def allLiterals (literals : List String) : List String :=
  Ascending.ofList (literals ++ ["(", ")"])

/-- A literal on word boundaries, where no longer one matches. -/
def literalLexer (all : List String) (text : String) : Lexer :=
  let longer := all.filter fun other => text.toList.isPrefixOf other.toList && other ≠ text
  let word := Lexer.word text.toList
  if longer.isEmpty then word
  else .seq [.notAhead (.choice (longer.map fun other => Lexer.word other.toList)), word]

/-- An identifier, where no literal matches. -/
def variableLexer (all : List String) : Lexer :=
  .seq [.notAhead (.choice (all.map fun text => Lexer.word text.toList)), Lexer.identifier]

/-- The end of the blanks at a position. At the end of a line they go on to the next line that is
not blank, up to its text. -/
def blanksEnd (w : Window) (p : Position) : Except Fault Position := do
  let n := (← Lexer.blanks.lex (← w.line p.line) p.offset).getD 0
  let stop : Position := ⟨p.line, p.offset + n⟩
  if (← w.rest stop).isEmpty then
    match ← w.skipBlank (p.line + 1) with
    | some next => return ⟨next, ← w.indentation next⟩
    | none => return stop
  else
    return stop

/-- Blanks, possibly over line ends. Those that run to the end of the window belong to it. -/
def blanks {σ : Type} : Parser σ := fun s w p => do
  if p.line < w.count then
    let stop ← blanksEnd w p
    if stop = p then return none
    if ← w.isDone stop then return none
    return some ⟨s, .make .discard (w.spanBetween p stop) [], stop⟩
  else
    return none

/-- The parser of a terminal among all literals. -/
def parser {σ : Type} (all : List String) : Terminal → Parser σ
  | literal text => .token (literalLexer all text) text
  | identifier => .token (variableLexer all) "var"
  | blank => blanks
  | optionalBlank => .optional blanks
  | endOfInput => .endOfWindow

/-- The terminals of declared syntax with these literals, by name. -/
def named (literals : List String) : List (String × Terminal) :=
  ((allLiterals literals).map literal ++ [identifier, blank, optionalBlank]).map fun t => (t.key, t)

/-- The terminals that never match at one place. -/
def distinctKeys (literals : List String) : List String :=
  (literals ++ ["(", ")"]).map literalKey ++ [identifier.key, blank.key]

end Terminal

end Mixfix
