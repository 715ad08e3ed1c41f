import DotCascade.Graph.Written
import DotCascade.Reading.Source
import DotCascade.Stylesheet.Cascade

/-!
# Edits

A graph is built up by a row of edits: reading a source in its place, styling
it, adding statements or attributes, merging the content of another source, and
moving the whole content into one subgraph.  An edit whose source cannot be read
changes nothing.
-/

namespace DotCascade

/-- A change to a graph. -/
inductive Edit where
  | replace (source : String)
  | style (source : String)
  | addStatement (statement : Statement)
  | setAttributes (attributes : Attributes)
  | merge (source : String)
  /-- Moves the whole content into one subgraph, perhaps with a name. -/
  | wrap (id : Option Atom)

namespace Edit

/-- The graph after an edit. -/
def apply (graph : Graph) : Edit → Except ReadError Graph
  | replace source => Graph.parse source
  | style source => (Stylesheet.parse source).map fun sheet => sheet.apply graph
  | addStatement statement =>
      .ok { graph with content := graph.content.withStatement statement }
  | setAttributes attributes =>
      .ok { graph with content := graph.content.withAttributes attributes }
  | merge source =>
      (Graph.parse source).map fun other =>
        { graph with content := graph.content.merge other.content }
  | wrap id =>
      .ok { graph with content := .ofStatements [graph.content.toSubgraph id] }

end Edit

end DotCascade
