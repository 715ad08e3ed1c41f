import DotCascade.Graph.Basic

/-!
# Edge chains

A chain links endpoints from left to right.  An endpoint is a list of node
references or a subgraph, which stands for all nodes that it declares.  A chain
expands into its subgraphs, followed by one edge for every pair of nodes of
neighbouring endpoints.
-/

namespace DotCascade

mutual

/-- The nodes that a statement declares, in the order of writing. -/
def Statement.nodeRefs : Statement → List NodeRef
  | .defaults _ _ => []
  | .node id _ => [⟨id, none⟩]
  | .edge head tail _ => [head, tail]
  | .subgraph _ _ statements => Statement.nodeRefsList statements

/-- The nodes that several statements declare, in the order of writing. -/
def Statement.nodeRefsList : List Statement → List NodeRef
  | [] => []
  | statement :: rest => statement.nodeRefs ++ Statement.nodeRefsList rest

end

/-- The nodes that a content declares at any depth, each at its first occurrence. -/
def Content.nodeRefs (content : Content) : List NodeRef :=
  (Statement.nodeRefsList content.statements).eraseDups

/-- One end of a link in a chain. -/
inductive Endpoint where
  | nodes (refs : List NodeRef)
  | subgraph (id : Option Atom) (content : Content)

namespace Endpoint

/-- The nodes that an endpoint stands for. -/
def nodeRefs : Endpoint → List NodeRef
  | nodes refs => refs
  | subgraph _ content => content.nodeRefs

/-- The statement that an endpoint leaves behind: its subgraph, if it is one. -/
def statement? : Endpoint → Option Statement
  | nodes _ => none
  | subgraph id content => some (content.toSubgraph id)

end Endpoint

/-- The edges from every head to every tail, head by head. -/
def crossEdges
    (attributes : Attributes)
    (heads tails : List NodeRef) : List Statement :=
  heads.flatMap fun head => tails.map fun tail => .edge head tail attributes

/-- The edges between neighbouring endpoints, link by link. -/
def chainEdges (attributes : Attributes) : List Endpoint → List Statement
  | first :: second :: rest =>
      crossEdges attributes first.nodeRefs second.nodeRefs ++
        chainEdges attributes (second :: rest)
  | _ => []

/-- The content that a chain of endpoints stands for. -/
def expandChain (endpoints : List Endpoint) (attributes : Attributes) : Content :=
  .ofStatements
    (endpoints.filterMap Endpoint.statement? ++ chainEdges attributes endpoints)

end DotCascade
