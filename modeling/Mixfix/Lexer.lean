import Mixfix.Fault
import Mixfix.Text.Bytes
import Mixfix.Unicode.Alphabetic

/-!
# Lexers

A lexer looks at one line from a byte offset and either fails or says how many bytes it takes. To
take none is a success. Past the end of the line every lexer fails (`Lexer.lex_past`).
-/

namespace Mixfix

/-- A way to match the beginning of a line. -/
inductive Lexer where
  /-- Takes nothing. -/
  | empty
  /-- Takes exactly this text. -/
  | literal (text : Line)
  /-- Takes one character that satisfies the predicate. -/
  | charIf (p : Char → Bool)
  /-- Takes every part, one after the other. -/
  | seq (parts : List Lexer)
  /-- Takes what the first matching alternative takes. -/
  | choice (alternatives : List Lexer)
  /-- Takes what the longest match among the alternatives takes. -/
  | longest (alternatives : List Lexer)
  /-- Takes what the lexer takes, or nothing. -/
  | optional (lexer : Lexer)
  /-- Takes as many matches in a row as there are. -/
  | many (lexer : Lexer)
  /-- Takes nothing, where the lexer matches. -/
  | ahead (lexer : Lexer)
  /-- Takes nothing, where the lexer does not match. -/
  | notAhead (lexer : Lexer)
  /-- Takes everything up to the end of the line. -/
  | restOfLine
deriving Inhabited

namespace Lexer

/-- The line from an offset on. -/
def suffix (text : Line) (offset : Nat) : Except Fault Line :=
  match dropBytes offset text with
  | none => .error .brokenSlice
  | some rest => .ok rest

/-- Repeats a match from an offset until it fails, and adds up what it takes. A match that takes
nothing is a fault. The fuel bounds the bytes that are left, so it never runs out before the end
of the line. -/
def iterate (step : Nat → Except Fault (Option Nat)) : (fuel offset : Nat) → Except Fault Nat
  | 0, _ => .ok 0
  | fuel + 1, offset => do
    match ← step offset with
    | none => return 0
    | some 0 => throw (.lexerStalled offset)
    | some (n + 1) => return n + 1 + (← iterate step fuel (offset + (n + 1)))

/-- The longer of two matches. -/
def longer : Option Nat → Option Nat → Option Nat
  | none, b => b
  | some a, none => some a
  | some a, some b => some (max a b)

mutual

/-- The number of bytes taken from an offset of a line, or `none`. -/
def lex (text : Line) : Lexer → Nat → Except Fault (Option Nat)
  | .empty, i => if byteSize text < i then .ok none else .ok (some 0)
  | .literal lit, i =>
    if byteSize text < i then .ok none
    else (suffix text i).map fun rest => if lit.isPrefixOf rest then some (byteSize lit) else none
  | .charIf p, i =>
    if byteSize text < i then .ok none
    else (suffix text i).map fun rest => (rest.head?.filter p).map Char.utf8Size
  | .seq parts, i => if byteSize text < i then .ok none else lexSeq text parts i
  | .choice alternatives, i =>
    if byteSize text < i then .ok none else lexChoice text alternatives i
  | .longest alternatives, i =>
    if byteSize text < i then .ok none else lexLongest text alternatives i none
  | .optional l, i =>
    if byteSize text < i then .ok none else (lex text l i).map fun n => some (n.getD 0)
  | .many l, i =>
    if byteSize text < i then .ok none
    else (iterate (lex text l) (byteSize text + 1 - i) i).map some
  | .ahead l, i =>
    if byteSize text < i then .ok none else (lex text l i).map fun n => n.map fun _ => 0
  | .notAhead l, i =>
    if byteSize text < i then .ok none
    else (lex text l i).map fun n => if n.isSome then none else some 0
  | .restOfLine, i => if byteSize text < i then .ok none else .ok (some (byteSize text - i))

/-- The bytes taken by every part in turn. -/
def lexSeq (text : Line) : List Lexer → Nat → Except Fault (Option Nat)
  | [], _ => .ok (some 0)
  | l :: parts, i => do
    match ← lex text l i with
    | none => return none
    | some n => return (← lexSeq text parts (i + n)).map (n + ·)

/-- The bytes taken by the first alternative that matches. -/
def lexChoice (text : Line) : List Lexer → Nat → Except Fault (Option Nat)
  | [], _ => .ok none
  | l :: alternatives, i => do
    match ← lex text l i with
    | none => lexChoice text alternatives i
    | some n => return some n

/-- The bytes taken by the longest match among `best` and the alternatives. -/
def lexLongest (text : Line) : List Lexer → Nat → Option Nat → Except Fault (Option Nat)
  | [], _, best => .ok best
  | l :: alternatives, i, best => do
    lexLongest text alternatives i (longer best (← lex text l i))

end

/-- Past the end of the line every lexer fails. -/
theorem lex_past {text : Line} {i : Nat} (h : byteSize text < i) (l : Lexer) :
    lex text l i = .ok none := by
  cases l <;> rw [lex, if_pos h]

/-- The lexer takes the whole line. -/
def isMatch (l : Lexer) (text : Line) : Except Fault Bool :=
  (l.lex text 0).map fun n => n == some (byteSize text)

/-- One match after another. -/
def andThen (l next : Lexer) : Lexer := .seq [l, next]

/-- A match, or else another. -/
def orElse (l alternative : Lexer) : Lexer := .choice [l, alternative]

/-- One or more matches in a row. -/
def many1 (l : Lexer) : Lexer := .seq [l, .many l]

/-- Any one character. -/
def anyChar : Lexer := .charIf fun _ => true

/-- A decimal digit. -/
def digit : Lexer := .charIf Char.isDigit

/-- One or more spaces or tabs. -/
def blanks : Lexer := many1 (.charIf fun c => c == ' ' || c == '\t')

/-- A letter followed by word characters. -/
def identifier : Lexer := .seq [.charIf isAlphabetic, .many (.charIf isWordChar)]

/-- A literal that no word character may follow if it ends with one. -/
def word (text : Line) : Lexer :=
  match text.getLast? with
  | some last =>
    if isWordChar last then .seq [.literal text, .notAhead (.charIf isWordChar)]
    else .literal text
  | none => .literal text

end Lexer

end Mixfix
