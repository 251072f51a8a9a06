import Mixfix.Text.Bytes
import Mixfix.Unicode.Printable

/-!
# Quoted lines

A line between double quotes. A quote and a backslash are written after a backslash, the common
controls by their letter, and any other character that has no shape of its own by its code point in
hexadecimal.
-/

namespace Mixfix

/-- A code point as `\u`, in hexadecimal and between braces. -/
def codePointEscape (c : Char) : List Char :=
  ['\\', 'u', Char.ofNat 0x7b] ++ Nat.toDigits 16 c.toNat ++ [Char.ofNat 0x7d]

/-- One character of a quoted line. -/
def quotedChar (c : Char) : List Char :=
  if c = Char.ofNat 0 then ['\\', '0']
  else if c = '\t' then ['\\', 't']
  else if c = '\r' then ['\\', 'r']
  else if c = '\n' then ['\\', 'n']
  else if c = '\\' ∨ c = '"' then ['\\', c]
  else if isPrintable c then [c]
  else codePointEscape c

/-- A line between quotes. -/
def quoted (s : Line) : List Char := '"' :: s.flatMap quotedChar ++ ['"']

end Mixfix
