/-!
# Letters of words

The character classes from which bare words, class names, tag names and numbers
are made.  A bare word may use every character from U+0080 to U+FFFF; characters
beyond the basic plane never belong to a word.
-/

namespace DotCascade
namespace Text

/-- The characters from U+0080 to U+FFFF, all of which are letters of words. -/
def isWideLetter (c : Char) : Bool :=
  0x80 ≤ c.toNat && c.toNat ≤ 0xFFFF

/-- The characters that may begin a word. -/
def isWordStart (c : Char) : Bool :=
  c.isAlpha || c = '_' || isWideLetter c

/-- The characters that may continue a word. -/
def isWordPart (c : Char) : Bool :=
  isWordStart c || c.isDigit

/-- The characters that may begin the name of a tag attribute. -/
def isAttributeStart (c : Char) : Bool :=
  c.isAlpha || c = '_'

/-- The characters that may continue the name of a tag attribute. -/
def isAttributePart (c : Char) : Bool :=
  isAttributeStart c || c.isDigit || c = ':' || c = '.' || c = '-'

theorem isWordPart_of_isWordStart
    {c : Char} (h : isWordStart c) :
    isWordPart c := by
  simp [isWordPart, h]

theorem isAttributePart_of_isAttributeStart
    {c : Char} (h : isAttributeStart c) :
    isAttributePart c := by
  simp [isAttributePart, h]

/-- The longest word at the front of a text, if the text begins with one. -/
def word? : List Char → Option (List Char)
  | [] => none
  | c :: rest =>
      if isWordStart c then some (c :: rest.takeWhile isWordPart) else none

/-- A word has at least one character. -/
theorem word?_ne_nil
    {text word : List Char}
    (h : word? text = some word) :
    word ≠ [] := by
  cases text with
  | nil => simp [word?] at h
  | cons c rest =>
      simp only [word?] at h
      split at h
      case isTrue =>
        simp only [Option.some.injEq] at h
        simp [← h]
      case isFalse => simp at h

end Text
end DotCascade
