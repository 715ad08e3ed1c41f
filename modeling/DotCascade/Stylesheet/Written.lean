import DotCascade.Graph.Written
import DotCascade.Stylesheet.Basic

/-!
# The written form of stylesheets

A rule is written as its selector, with the classes in ascending order, and one
declaration a line.  Rules that set nothing are left out.
-/

namespace DotCascade

/-- A selector as it stands in a source. -/
def Selector.written (selector : Selector) : List Char :=
  selector.entity.word.toList ++
    selector.classes.names.flatMap fun name => '.' :: name.toList

/-- A declaration on a line of its own. -/
def writtenDeclaration (indent : Int) (declaration : Attribute) : List Char :=
  padding indent 1 ++ declaration.1.written ++ ':' :: ' ' ::
    declaration.2.written ++ [';', '\n']

/-- A rule with its declarations. -/
def Rule.written (indent : Int) (rule : Rule) : List Char :=
  rule.selector.written ++ [' ', '{', '\n'] ++
    rule.attributes.entries.flatMap (writtenDeclaration indent) ++ ['}', '\n']

/-- The characters of a stylesheet as it stands in a source. -/
def Stylesheet.written (indent : Int) (stylesheet : Stylesheet) : List Char :=
  (stylesheet.rules.filter fun rule => !rule.attributes.isEmpty).flatMap
    (Rule.written indent)

/-- The text of a stylesheet. -/
def Stylesheet.toText (stylesheet : Stylesheet) (indent : Int) : String :=
  String.ofList (stylesheet.written indent)

end DotCascade
