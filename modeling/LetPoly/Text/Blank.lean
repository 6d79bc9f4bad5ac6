/-!
# Blank characters

The white space of source text: the ASCII controls that separate words or lines, the
information separators, and the space separators and line separators of Unicode.
-/

namespace LetPoly
namespace Text

/-- The blank code points outside ASCII. -/
def wideBlanks : List Nat :=
  [0x85, 0xA0, 0x1680, 0x2000, 0x2001, 0x2002, 0x2003, 0x2004, 0x2005, 0x2006, 0x2007,
    0x2008, 0x2009, 0x200A, 0x2028, 0x2029, 0x202F, 0x205F, 0x3000]

/-- Whether a character is white space. -/
def isBlank (c : Char) : Bool :=
  let n := c.toNat
  (9 ≤ n && n ≤ 13) || (28 ≤ n && n ≤ 32) || wideBlanks.contains n

/-- Drops the blanks at the end. -/
def trimEnd (cs : List Char) : List Char :=
  (cs.reverse.dropWhile isBlank).reverse

/-- Whether a line holds nothing but blanks. -/
def isBlankLine (line : String) : Bool :=
  line.toList.all isBlank

end Text
end LetPoly
