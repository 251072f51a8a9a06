import Mixfix.Unicode.Ranges

/-!
# Blank characters

The characters of the Unicode property White_Space. Lines are trimmed, and names split into
symbols, at these characters.
-/

namespace Mixfix

/-- The code points of White_Space. -/
def blankRanges : Ranges :=
  [(9, 13), (32, 32), (133, 133), (160, 160), (5760, 5760), (8192, 8202), (8232, 8233),
   (8239, 8239), (8287, 8287), (12288, 12288)]

/-- `c` counts as blank. -/
def isBlank (c : Char) : Bool := blankRanges.contains c

/-- Nothing but blank characters. -/
def allBlank (s : List Char) : Bool := s.all isBlank

end Mixfix
