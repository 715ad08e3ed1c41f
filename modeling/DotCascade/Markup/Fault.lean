import DotCascade.Markup.Basic

/-!
# What can be wrong inside markup

The brackets of a markup word balance, but its tags may still be malformed.  A
fault says which rule of tags is broken; its two texts are those of the error
message and of the list of pieces that could have stood there.
-/

namespace DotCascade
namespace Markup

/-- A broken rule of tags. -/
inductive Fault where
  /-- A closing tag where no element is open. -/
  | closingTag
  /-- A lone closing bracket while an element is open. -/
  | bracketInside (element : Name)
  /-- An opening bracket that no tag name follows. -/
  | missingName
  /-- A tag that neither a tag attribute nor the end of the tag continues. -/
  | malformedTag (element : Name)
  /-- A closing tag of another element, or one that is malformed. -/
  | mismatchedTag (element : Name)
deriving DecidableEq

namespace Fault

/-- What an error message says about the fault. -/
def message : Fault → String
  | closingTag => "Unexpected closing tag"
  | bracketInside element =>
      "Unexpected '>' inside <" ++ element.text ++ ">"
  | missingName => "Expected a tag name"
  | malformedTag element => "Malformed tag <" ++ element.text ++ ">"
  | mismatchedTag element =>
      "Mismatched closing tag for <" ++ element.text ++ ">"

/-- The closing tag of an element between single quotes. -/
def closing (element : Name) : String :=
  "'</" ++ element.text ++ ">'"

/-- What could have stood in the place of the fault. -/
def expected : Fault → List String
  | closingTag => ["'>'"]
  | bracketInside element => [closing element]
  | missingName => ["tag name"]
  | malformedTag _ => ["'>'", "'/>'"]
  | mismatchedTag element => [closing element]

end Fault

end Markup
end DotCascade
