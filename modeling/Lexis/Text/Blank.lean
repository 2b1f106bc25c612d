/-!
# White space

The characters with the property White_Space: the ASCII controls from tab to carriage return, the
space, and the separators of other scripts.
-/

namespace Lexis.Text

/-- The characters that count as white space. -/
def blanks : List Char :=
  ['\x09', '\x0a', '\x0b', '\x0c', '\x0d', '\x20', '\u0085', '\u00a0', '\u1680',
   '\u2000', '\u2001', '\u2002', '\u2003', '\u2004', '\u2005', '\u2006', '\u2007', '\u2008',
   '\u2009', '\u200a', '\u2028', '\u2029', '\u202f', '\u205f', '\u3000']

/-- Tells white space from other characters. -/
def isBlank (c : Char) : Bool := blanks.contains c

/-- Tells the two characters that end a line, line feed and carriage return. -/
def isLineEnd (c : Char) : Bool := c == '\n' || c == '\r'

/-- The text without the white space at both ends. -/
def trim (text : List Char) : List Char :=
  ((text.dropWhile isBlank).reverse.dropWhile isBlank).reverse

end Lexis.Text
