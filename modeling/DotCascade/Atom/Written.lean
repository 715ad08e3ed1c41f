import DotCascade.Atom
import DotCascade.Attributes
import DotCascade.Markup.Written

/-!
# The written form of atoms and attributes

Every text atom is written between double quotes, also one that could stand
without, and a double quote in it is written behind a backslash.  No other
character is escaped, so a text whose backslashes would be read together with
the characters behind them does not come back as it was.
-/

namespace DotCascade

/-- A character between double quotes. -/
def writtenTextChar (c : Char) : List Char :=
  if c = '"' then ['\\', '"'] else [c]

namespace Atom

/-- An atom as it stands in a source. -/
def written : Atom → List Char
  | text value => '"' :: value.toList.flatMap writtenTextChar ++ ['"']
  | markup nodes => '<' :: Markup.written nodes ++ ['>']

end Atom

namespace Attributes

/-- Attributes in brackets, separated by spaces. -/
def written (attributes : Attributes) : List Char :=
  let pairs := attributes.entries.map fun (key, value) =>
    key.written ++ '=' :: value.written
  '[' :: List.intercalate [' '] pairs ++ [']']

/-- Attributes behind a statement: nothing, or a space and the attributes in brackets. -/
def writtenBehind (attributes : Attributes) : List Char :=
  if attributes.isEmpty then [] else ' ' :: attributes.written

end Attributes

end DotCascade
