import DotCascade.Markup.Basic

/-!
# Atoms

An atom names things in graphs and stylesheets: graphs, nodes, ports, attribute
keys and attribute values.  A bare word, a number and a quoted text all give a
text atom; brackets give a markup atom.
-/

namespace DotCascade

/-- A name or a value. -/
inductive Atom where
  | text (value : String)
  | markup (nodes : List Markup.Node)
deriving DecidableEq

namespace Atom

/-- The same atom with normalized markup. -/
def normalized : Atom → Atom
  | text value => text value
  | markup nodes => markup (Markup.normalize nodes)

end Atom
end DotCascade
