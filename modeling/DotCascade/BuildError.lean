import DotCascade.Stylesheet.Basic

/-!
# Values that cannot be built

Two values have no place in a graph: an element without a name, and defaults for
graphs, because a graph keeps its attributes in its content.
-/

namespace DotCascade

/-- Why a value cannot be built. -/
inductive BuildError where
  | namelessElement
  | graphDefaults
deriving DecidableEq

/-- What a message says. -/
def BuildError.message : BuildError → String
  | namelessElement => "Markup element name must be a non-empty string"
  | graphDefaults => "Graph attributes belong in GraphContent.attributes"

/-- An element with a given name. -/
def Markup.Node.build
    (name : String)
    (attributes : List TagAttribute)
    (children : List Node) : Except BuildError Node :=
  match Name.ofString? name with
  | some name => .ok (.element name attributes children)
  | none => .error .namelessElement

/-- Defaults for elements of a given kind. -/
def Statement.buildDefaults
    (entity : Entity)
    (attributes : Attributes) : Except BuildError Statement :=
  match entity.defaultsKind? with
  | some kind => .ok (.defaults kind attributes)
  | none => .error .graphDefaults

end DotCascade
