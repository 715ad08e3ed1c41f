/-!
# White space

Three notions of white space occur.  Between the words of a source only the five
ASCII blanks count.  Around a number it is every character of the Unicode
property White_Space.  Inside a tag the four information separators U+001C to
U+001F count as well.
-/

namespace DotCascade
namespace Text

/-- White space between words. -/
def isBlank (c : Char) : Bool :=
  c = ' ' || c = '\t' || c = '\x0c' || c = '\r' || c = '\n'

/-- The characters of the Unicode property White_Space. -/
def isWhiteSpace (c : Char) : Bool :=
  let n := c.toNat
  (0x09 ≤ n && n ≤ 0x0D) || n = 0x20 || n = 0x85 || n = 0xA0 || n = 0x1680 ||
    (0x2000 ≤ n && n ≤ 0x200A) || n = 0x2028 || n = 0x2029 || n = 0x202F ||
    n = 0x205F || n = 0x3000

/-- The information separators of ASCII. -/
def isSeparator (c : Char) : Bool :=
  0x1C ≤ c.toNat && c.toNat ≤ 0x1F

/-- White space inside a tag. -/
def isSpace (c : Char) : Bool :=
  isWhiteSpace c || isSeparator c

end Text
end DotCascade
