import DotCascade.Graph.Basic

/-!
# Levels of nesting

The lines of a written content stand on levels.  The first level is that of the
content itself, and every subgraph opens a further one, unless it is empty.
-/

namespace DotCascade

/-- The number of levels that the attributes of a content need. -/
def ownLevels (attributes : Attributes) : Nat :=
  if attributes.isEmpty then 0 else 1

mutual

/-- The number of levels on which a statement has lines. -/
def Statement.levels : Statement → Nat
  | .defaults _ _ => 1
  | .node _ _ => 1
  | .edge _ _ _ => 1
  | .subgraph _ attributes statements =>
      Nat.max (ownLevels attributes) (Statement.levelsList statements) + 1

/-- The number of levels on which several statements have lines. -/
def Statement.levelsList : List Statement → Nat
  | [] => 0
  | statement :: rest => Nat.max statement.levels (Statement.levelsList rest)

end

/-- The number of levels on which a content has lines. -/
def Content.levels (content : Content) : Nat :=
  Nat.max (ownLevels content.attributes) (Statement.levelsList content.statements)

end DotCascade
