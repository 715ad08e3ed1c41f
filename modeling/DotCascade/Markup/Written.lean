import DotCascade.Markup.Basic

/-!
# The written form of markup

Angle brackets in a run of text are written as character entities, because a
bracket would end the run.  A tag attribute value is written between double
quotes unless it holds one.  An element without children is a single tag.
-/

namespace DotCascade
namespace Markup

/-- A character of a run of text. -/
def writtenChar (c : Char) : List Char :=
  if c = '<' then ['&', 'l', 't', ';']
  else if c = '>' then ['&', 'g', 't', ';']
  else [c]

/-- A run of text. -/
def writtenRun (run : String) : List Char :=
  run.toList.flatMap writtenChar

/-- The value of a tag attribute between quotes that it does not hold, if there are such. -/
def writtenValue (value : String) : List Char :=
  let quote := if value.toList.contains '"' then '\x27' else '"'
  quote :: value.toList ++ [quote]

/-- The tag attributes of an element, each after a space. -/
def writtenAttributes (attributes : List TagAttribute) : List Char :=
  attributes.flatMap fun (name, value) =>
    ' ' :: name.toList ++ '=' :: writtenValue value

mutual

/-- A node as it stands in a source. -/
def Node.written : Node → List Char
  | .text run => writtenRun run
  | .element name attributes [] =>
      '<' :: name.text.toList ++ writtenAttributes attributes ++ ['/', '>']
  | .element name attributes (child :: children) =>
      '<' :: name.text.toList ++ writtenAttributes attributes ++
        '>' :: (child.written ++ written children) ++
        '<' :: '/' :: name.text.toList ++ ['>']

/-- Neighbouring nodes, one after the other. -/
def written : List Node → List Char
  | [] => []
  | node :: rest => node.written ++ written rest

end

end Markup
end DotCascade
