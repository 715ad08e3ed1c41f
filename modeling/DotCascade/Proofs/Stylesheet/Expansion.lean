import DotCascade.Proofs.Graph.Chains
import DotCascade.Proofs.Stylesheet.Pipeline

/-!
# The cascade and the expansion of chains

It makes no difference whether a chain is expanded and then styled, or its
endpoints and its attributes are styled and then the chain is expanded
(`styled_expandChain`).  Styling keeps which nodes a content declares and in which
order (`nodeRefs_styledContent`), so the links of a chain stay between the same
nodes; and every edge of a chain begins with the attributes of the chain, so all
of them are styled alike.

The rules must ask for classes.  What a chain expands into has no attributes of
its own, and a rule without classes would give it some.
-/

namespace DotCascade

section Nodes

variable (rules : List Rule)

mutual

theorem nodeRefs_styled
    (statement : Statement) :
    (statement.styled rules).nodeRefs = statement.nodeRefs := by
  match statement with
  | .defaults _ _ | .node _ _ | .edge _ _ _ =>
      rfl
  | .subgraph _ _ statements =>
      rw [Statement.styled, Statement.nodeRefs, Statement.nodeRefs,
        nodeRefsList_styledList statements]

theorem nodeRefsList_styledList
    (statements : List Statement) :
    Statement.nodeRefsList (Statement.styledList rules statements) =
      Statement.nodeRefsList statements := by
  match statements with
  | [] =>
      rfl
  | statement :: rest =>
      rw [Statement.styledList, Statement.nodeRefsList, Statement.nodeRefsList,
        nodeRefs_styled statement, nodeRefsList_styledList rest]

end

/-- A styled content declares the nodes that it declared before, in the same order. -/
theorem nodeRefs_styledContent
    (content : Content) :
    (content.styled rules).nodeRefs = content.nodeRefs := by
  rw [Content.nodeRefs, Content.nodeRefs, Content.styled, nodeRefsList_styledList]

/-- An endpoint with its subgraph styled, if it is one. -/
def Endpoint.styled : Endpoint → Endpoint
  | nodes refs => nodes refs
  | subgraph id content => subgraph id (content.styled rules)

theorem nodeRefs_styledEndpoint
    (endpoint : Endpoint) :
    (endpoint.styled rules).nodeRefs = endpoint.nodeRefs := by
  cases endpoint with
  | nodes _ =>
      rfl
  | subgraph _ content =>
      exact nodeRefs_styledContent rules content

theorem statement?_styledEndpoint
    (endpoint : Endpoint) :
    (endpoint.styled rules).statement? = endpoint.statement?.map (Statement.styled rules) := by
  cases endpoint with
  | nodes _ =>
      rfl
  | subgraph id content =>
      rw [Endpoint.styled, Endpoint.statement?, Endpoint.statement?, Option.map_some,
        Content.toSubgraph, Content.toSubgraph, Statement.styled]
      rfl

end Nodes

section Edges

variable (rules : List Rule)

theorem styledList_crossEdges
    (attributes : Attributes) (heads tails : List NodeRef) :
    Statement.styledList rules (crossEdges attributes heads tails) =
      crossEdges (styledAttributes .edge rules attributes) heads tails := by
  rw [styledList_eq_map, crossEdges, List.map_flatMap, crossEdges]
  refine List.flatMap_congr fun head _ => ?_
  rw [List.map_map]
  exact List.map_congr_left fun tail _ => by rw [Function.comp_apply, Statement.styled]

theorem styledList_chainEdges
    (attributes : Attributes) :
    (endpoints : List Endpoint) →
    Statement.styledList rules (chainEdges attributes endpoints) =
      chainEdges (styledAttributes .edge rules attributes) (endpoints.map (Endpoint.styled rules))
  | [] | [_] => rfl
  | first :: second :: rest => by
      rw [chainEdges_cons, styledList_append, styledList_crossEdges,
        styledList_chainEdges attributes (second :: rest)]
      simp only [List.map_cons, chainEdges_cons, nodeRefs_styledEndpoint]

theorem styledList_subgraphs
    (endpoints : List Endpoint) :
    Statement.styledList rules (endpoints.filterMap Endpoint.statement?) =
      (endpoints.map (Endpoint.styled rules)).filterMap Endpoint.statement? := by
  rw [styledList_eq_map, List.map_filterMap, List.filterMap_map]
  exact List.filterMap_congr fun endpoint _ => (statement?_styledEndpoint rules endpoint).symm

end Edges

/-- Styling what a chain expands into is the same as expanding the chain of the styled endpoints
with the styled attributes, and styling leaves the nodes that a content declares as they are. -/
theorem styled_expandChain
    (rules : List Rule) (hrules : ∀ rule ∈ rules, rule.selector.isGeneral = false) :
    (∀ (endpoints : List Endpoint) (attributes : Attributes),
      (expandChain endpoints attributes).styled rules =
        expandChain (endpoints.map (Endpoint.styled rules))
          (styledAttributes .edge rules attributes)) ∧
      ∀ content : Content, (content.styled rules).nodeRefs = content.nodeRefs := by
  refine ⟨fun endpoints attributes => ?_, nodeRefs_styledContent rules⟩
  have hbare : styledAttributes .graph rules Attributes.empty = Attributes.empty :=
    styledAttributes_of_classNames_eq_nil hrules .graph rfl
  rw [expandChain, Content.styled, Content.ofStatements, hbare, styledList_append,
    styledList_subgraphs, styledList_chainEdges]
  rfl

/-- An edge into a subgraph: rules for edges and for nodes style what the chain expands into. -/
theorem styled_expandChain_subgraph :
    let own : Attributes := .ofList [(.text "class", .text "x")]
    let colored (color : String) : Attributes :=
      .ofList [(.text "color", .text color), (.text "class", .text "x")]
    let rules : List Rule :=
      [⟨⟨.node, .ofList ["x"]⟩, .ofList [(.text "color", .text "red")]⟩,
        ⟨⟨.edge, .ofList ["x"]⟩, .ofList [(.text "color", .text "blue")]⟩]
    let start : Endpoint := .nodes [⟨.text "a", none⟩]
    let inner (attributes : Attributes) : Content := .ofStatements [.node (.text "b") attributes]
    (∀ rule ∈ rules, rule.selector.isGeneral = false) ∧
      (expandChain [start, .subgraph none (inner own)] own).styled rules =
        expandChain [start, .subgraph none (inner (colored "red"))] (colored "blue") ∧
      ((inner own).styled rules).nodeRefs = (inner own).nodeRefs := by
  intro own colored rules start inner
  have hrules : ∀ rule ∈ rules, rule.selector.isGeneral = false := by decide
  obtain ⟨hchain, hnodes⟩ := styled_expandChain rules hrules
  exact ⟨hrules, hchain [start, .subgraph none (inner own)] own, hnodes (inner own)⟩

end DotCascade
