import Mixfix.Fault
import Mixfix.Text.Bytes
import Mixfix.Text.Quoted
import Mixfix.Unicode.Blank

/-!
# Windows on a text

A source is a list of lines with a map from its own positions to absolute ones. A window shows
byte ranges of source lines, one row each. Cutting a window gives another window on the same
source, so a position in a nested window maps back in one step.

Reading a row whose ends fall inside a character is a fault, as is reading a line that is not
there.
-/

namespace Mixfix

/-- A line-addressed text, with the absolute place of each of its positions. -/
structure Source where
  lines : List Line
  /-- Where a position of this text lies; a document that is part of a larger one shifts it. -/
  place : Position → Position := id

namespace Source

/-- Splits at every character that satisfies `p`; there is always a last part. -/
def splitAt (p : Char → Bool) : List Char → List Line
  | [] => [[]]
  | c :: s =>
    match splitAt p s with
    | [] => [[]]
    | line :: rest => if p c then [] :: line :: rest else (c :: line) :: rest

/-- Drops one carriage return at the end of a line. -/
def dropReturn : Line → Line
  | [] => []
  | ['\r'] => []
  | c :: s => c :: dropReturn s

/-- The lines of a text, each without its line feed and one carriage return before it. -/
def linesOf (text : List Char) : List Line := (splitAt (· == '\n') text).map dropReturn

/-- A text of its own. -/
def ofText (text : String) : Source := { lines := linesOf text.toList }

end Source

/-- A byte range of one source line. -/
structure Row where
  line : Nat
  start : Nat
  stop : Nat
deriving DecidableEq

/-- Some rows of a source. -/
structure Window where
  source : Source
  rows : List Row

namespace Window

/-- The whole source. -/
def ofSource (source : Source) : Window :=
  ⟨source, source.lines.mapIdx fun i line => ⟨i, 0, byteSize line⟩⟩

/-- The number of lines. -/
def count (w : Window) : Nat := w.rows.length

/-- An upper bound on the places of a window: one for each byte and each line end. -/
def extent (w : Window) : Nat := w.rows.foldl (fun n r => n + (r.stop - r.start + 1)) 0

/-- The text of a row. -/
def rowText (w : Window) (row : Row) : Except Fault Line :=
  match w.source.lines[row.line]? with
  | none => .error .missingLine
  | some line =>
    match sliceBytes row.start row.stop line with
    | none => .error .brokenSlice
    | some text => .ok text

/-- The text of a line. -/
def line (w : Window) (i : Nat) : Except Fault Line :=
  match w.rows[i]? with
  | none => .error .missingLine
  | some row => w.rowText row

/-- The text of a line from an offset on; nothing past the end of the line or of the window, nor
from inside a character. -/
def rest (w : Window) (p : Position) : Except Fault Line :=
  if p.line < w.count then
    (w.line p.line).map fun text => (dropBytes p.offset text).getD []
  else
    .ok []

/-- Where a position of the window lies. Past the last line, that is the end of the window. -/
def absolute (w : Window) (p : Position) : Position :=
  match w.rows[p.line]? with
  | some row => w.source.place ⟨row.line, row.start + p.offset⟩
  | none =>
    match w.rows.getLast? with
    | some row => w.source.place ⟨row.line, row.stop⟩
    | none => .zero

/-- The absolute span between two positions of the window. -/
def spanBetween (w : Window) (start stop : Position) : Span := ⟨w.absolute start, w.absolute stop⟩

/-- The position after the last character. -/
def stop (w : Window) : Except Fault Position :=
  match w.count with
  | 0 => .ok .zero
  | n + 1 => (w.line n).map fun text => ⟨n, byteSize text⟩

/-- A line of blank characters only. -/
def isBlankLine (w : Window) (i : Nat) : Except Fault Bool := (w.line i).map allBlank

/-- A space or a tab. -/
def isIndent (c : Char) : Bool := c == ' ' || c == '\t'

/-- The leading spaces and tabs of a line, in bytes. -/
def indentation (w : Window) (i : Nat) : Except Fault Nat :=
  (w.line i).map fun text => (text.takeWhile isIndent).length

/-- The first line that is not blank among the `n` lines from `i` on. -/
def firstFilled (w : Window) : (n i : Nat) → Except Fault (Option Nat)
  | 0, _ => .ok none
  | n + 1, i => do
    if ← w.isBlankLine i then w.firstFilled n (i + 1) else return some i

/-- The first line at or after `i` that is not blank. -/
def skipBlank (w : Window) (i : Nat) : Except Fault (Option Nat) :=
  w.firstFilled (w.count - i) i

/-- Nothing but blank characters from the position to the end of the line. -/
def lineIsDone (w : Window) (p : Position) : Except Fault Bool := (w.rest p).map allBlank

/-- Nothing but blank characters from the position to the end of the window. -/
def isDone (w : Window) (p : Position) : Except Fault Bool := do
  if ← w.lineIsDone p then
    return (← w.skipBlank (p.line + 1)).isNone
  else
    return false

/-- The rows of a block after its head: the lines from `i` on, up to the first one that is neither
blank nor indented. With them comes the smallest indentation of the lines that are not blank, and
the number of rows up to the last such line. -/
def continuation (w : Window) : (n i : Nat) → Except Fault (List Row × Option Nat × Nat)
  | 0, _ => .ok ([], none, 0)
  | n + 1, i =>
    match w.rows[i]? with
    | none => .error .missingLine
    | some row => do
      if ← w.isBlankLine i then
        let (rows, dedent, filled) ← w.continuation n (i + 1)
        return (row :: rows, dedent, if filled = 0 then 0 else filled + 1)
      else
        let depth ← w.indentation i
        if depth = 0 then
          return ([], none, 0)
        else
          let (rows, dedent, filled) ← w.continuation n (i + 1)
          return (row :: rows, some (dedent.elim depth (min depth)), filled + 1)

/-- The indented block at a position: the rest of its line, then the following lines up to the
first one that is neither blank nor indented. The following lines lose the smallest indentation
among them, and blank lines at the end are left out. -/
def cutBlock (w : Window) (p : Position) : Except Fault Window :=
  match w.rows[p.line]? with
  | none => .ok ⟨w.source, []⟩
  | some head => do
    let (rows, dedent, filled) ← w.continuation (w.count - (p.line + 1)) (p.line + 1)
    let first : Row := { head with start := min (head.start + p.offset) head.stop }
    let others := (rows.take filled).map fun row =>
      { row with start := min (row.start + dedent.getD 0) row.stop }
    return ⟨w.source, first :: others⟩

/-- The lines from `start` to `stop`, as far as they exist. -/
def cutLines (w : Window) (start stop : Nat) : Window :=
  ⟨w.source, (w.rows.take stop).drop start⟩

/-- The window up to a position. -/
def truncate (w : Window) (p : Position) : Window :=
  match w.rows[p.line]? with
  | none => w
  | some row =>
    ⟨w.source, w.rows.take p.line ++ [{ row with stop := min (row.start + p.offset) row.stop }]⟩

/-- Every line, in order. -/
def texts (w : Window) : Except Fault (List Line) := w.rows.mapM w.rowText

/-- The lines as a list of quoted texts. -/
def render (w : Window) : Except Fault String :=
  w.texts.map fun lines =>
    "[" ++ ", ".intercalate (lines.map fun line => String.ofList (quoted line)) ++ "]"

end Window

end Mixfix
