import DotCascade.Proofs.Graph.Mentions
import Mathlib.Data.List.Count
import Mathlib.Data.List.Infix

/-!
# What a chain expands into

A chain expands into its subgraphs and the edges of its links.  A link is the
product of the nodes of two neighbours, ordered by heads and then by tails
(`isProduct_crossEdges`), and the links stand in the order of the chain
(`expands_expandChain`).

Not every node of a chain is declared by what it expands into.  A subgraph keeps
its nodes; the nodes of a list are kept by edges alone, so a neighbour must stand
for some node (`mem_nodeRefs_expandChain`).
-/

namespace DotCascade

section Links

/-- The edges from every head to every tail, ordered by heads and then by tails. -/
structure IsProduct
    (attributes : Attributes)
    (heads tails : List NodeRef)
    (edges : List Statement) : Prop where
  length : edges.length = heads.length * tails.length
  mem : ∀ statement ∈ edges, ∃ head ∈ heads, ∃ tail ∈ tails,
    .edge head tail attributes = statement
  edge : ∀ i j head tail, heads[i]? = some head → tails[j]? = some tail →
    edges[i * tails.length + j]? = some (.edge head tail attributes)
  count : ∀ head tail,
    edges.count (.edge head tail attributes) = heads.count head * tails.count tail

theorem length_crossEdges
    (attributes : Attributes) (heads tails : List NodeRef) :
    (crossEdges attributes heads tails).length = heads.length * tails.length := by
  simp [crossEdges, List.length_flatMap]

theorem mem_crossEdges
    {attributes : Attributes} {heads tails : List NodeRef} {statement : Statement} :
    statement ∈ crossEdges attributes heads tails ↔
      ∃ head ∈ heads, ∃ tail ∈ tails, .edge head tail attributes = statement := by
  simp [crossEdges]

theorem crossEdges_cons
    (attributes : Attributes) (head : NodeRef) (heads tails : List NodeRef) :
    crossEdges attributes (head :: heads) tails =
      (tails.map fun tail => .edge head tail attributes) ++ crossEdges attributes heads tails :=
  rfl

theorem getElem?_crossEdges
    {attributes : Attributes} {heads tails : List NodeRef} {i j : Nat} {head tail : NodeRef}
    (hhead : heads[i]? = some head) (htail : tails[j]? = some tail) :
    (crossEdges attributes heads tails)[i * tails.length + j]? =
      some (.edge head tail attributes) := by
  induction heads generalizing i with
  | nil =>
      cases hhead
  | cons first rest ih =>
      rw [crossEdges_cons]
      cases i with
      | zero =>
          obtain rfl := Option.some.inj hhead
          obtain ⟨hj, -⟩ := List.getElem?_eq_some_iff.1 htail
          rw [Nat.zero_mul, Nat.zero_add, List.getElem?_append_left (by simpa using hj),
            List.getElem?_map, htail]
          rfl
      | succ i =>
          have hnumber : (i + 1) * tails.length + j = tails.length + (i * tails.length + j) := by
            rw [Nat.succ_mul]
            omega
          rw [hnumber, List.getElem?_append_right (by simp), List.length_map,
            Nat.add_sub_cancel_left]
          exact ih hhead

theorem count_edges
    (attributes : Attributes) (head first tail : NodeRef) (tails : List NodeRef) :
    (tails.map fun tail => Statement.edge first tail attributes).count
        (.edge head tail attributes) =
      if first = head then tails.count tail else 0 := by
  split
  case isTrue hsame =>
    subst hsame
    exact List.count_map_of_injective tails (Statement.edge first · attributes)
      (fun a b hab => by injection hab) tail
  case isFalse hdiffer =>
    rw [List.count_eq_zero]
    intro hmem
    obtain ⟨_, -, heq⟩ := List.mem_map.1 hmem
    injection heq with hfirst
    exact hdiffer hfirst

theorem count_crossEdges
    (attributes : Attributes) (heads tails : List NodeRef) (head tail : NodeRef) :
    (crossEdges attributes heads tails).count (.edge head tail attributes) =
      heads.count head * tails.count tail := by
  induction heads with
  | nil =>
      rw [List.count_nil, Nat.zero_mul]
      rfl
  | cons first rest ih =>
      rw [crossEdges_cons, List.count_append, count_edges, ih]
      split
      case isTrue hsame =>
        rw [hsame, List.count_cons_self, Nat.succ_mul, Nat.add_comm]
      case isFalse hdiffer =>
        rw [List.count_cons_of_ne hdiffer, Nat.zero_add]

theorem isProduct_crossEdges
    (attributes : Attributes) (heads tails : List NodeRef) :
    IsProduct attributes heads tails (crossEdges attributes heads tails) :=
  ⟨length_crossEdges attributes heads tails, fun _ => mem_crossEdges.1,
    fun _ _ _ _ => getElem?_crossEdges, count_crossEdges attributes heads tails⟩

end Links

section Chains

/-- What a chain expands into: its subgraphs as they are, and behind them the links between
neighbours, in the order of the chain. -/
structure Expands
    (endpoints : List Endpoint)
    (attributes : Attributes)
    (content : Content) : Prop where
  bare : content.attributes = Attributes.empty
  statements : ∃ links : List (List Statement),
    content.statements = endpoints.filterMap Endpoint.statement? ++ links.flatten ∧
      links.length = endpoints.length - 1 ∧
      ∀ i first second, endpoints[i]? = some first → endpoints[i + 1]? = some second →
        ∃ edges, links[i]? = some edges ∧
          IsProduct attributes first.nodeRefs second.nodeRefs edges

/-- The links of a chain, one after the other. -/
def chainLinks (attributes : Attributes) (endpoints : List Endpoint) : List (List Statement) :=
  List.zipWith (fun first second => crossEdges attributes first.nodeRefs second.nodeRefs)
    endpoints endpoints.tail

theorem chainEdges_cons
    (attributes : Attributes) (first second : Endpoint) (rest : List Endpoint) :
    chainEdges attributes (first :: second :: rest) =
      crossEdges attributes first.nodeRefs second.nodeRefs ++
        chainEdges attributes (second :: rest) :=
  rfl

theorem chainEdges_eq_flatten
    (attributes : Attributes) :
    (endpoints : List Endpoint) →
    chainEdges attributes endpoints = (chainLinks attributes endpoints).flatten
  | [] | [_] => rfl
  | first :: second :: rest => by
      rw [chainEdges_cons, chainEdges_eq_flatten attributes (second :: rest)]
      rfl

theorem expands_expandChain
    (endpoints : List Endpoint) (attributes : Attributes) :
    Expands endpoints attributes (expandChain endpoints attributes) := by
  refine ⟨rfl, chainLinks attributes endpoints, ?_, ?_, ?_⟩
  · rw [← chainEdges_eq_flatten]
    rfl
  · simp [chainLinks]
  · intro i first second hfirst hsecond
    refine ⟨crossEdges attributes first.nodeRefs second.nodeRefs, ?_,
      isProduct_crossEdges attributes first.nodeRefs second.nodeRefs⟩
    rw [chainLinks, List.getElem?_zipWith, hfirst, List.getElem?_tail, hsecond]

end Chains

/-- A subgraph stands for the nodes that it mentions, each once and in the order of their first
places, and a chain expands into its subgraphs and the products of its neighbours. -/
theorem expandChain_products :
    (∀ (id : Option Atom) (content : Content),
      (content.toSubgraph id).Lists (Endpoint.subgraph id content).nodeRefs) ∧
      (∀ refs, (Endpoint.nodes refs).nodeRefs = refs) ∧
      ∀ (endpoints : List Endpoint) (attributes : Attributes),
        Expands endpoints attributes (expandChain endpoints attributes) :=
  ⟨lists_nodeRefs, fun _ => rfl, expands_expandChain⟩

section Kept

/-- One endpoint stands beside another one in a chain. -/
def Beside (endpoints : List Endpoint) (endpoint neighbour : Endpoint) : Prop :=
  [endpoint, neighbour] <:+: endpoints ∨ [neighbour, endpoint] <:+: endpoints

/-- What a chain expands into declares the nodes of an endpoint: it is a subgraph, or a neighbour of
it stands for some node. -/
def Endpoint.IsKept (endpoints : List Endpoint) (endpoint : Endpoint) : Prop :=
  endpoint.statement?.isSome ∨
    ∃ neighbour, Beside endpoints endpoint neighbour ∧ neighbour.nodeRefs ≠ []

theorem nodeRefsList_eq_flatMap
    (statements : List Statement) :
    Statement.nodeRefsList statements = statements.flatMap Statement.nodeRefs := by
  induction statements with
  | nil =>
      rfl
  | cons statement rest ih =>
      rw [Statement.nodeRefsList, ih, List.flatMap_cons]

theorem mem_nodeRefsList
    {ref : NodeRef} {statements : List Statement} :
    ref ∈ Statement.nodeRefsList statements ↔
      ∃ statement ∈ statements, ref ∈ statement.nodeRefs := by
  rw [nodeRefsList_eq_flatMap, List.mem_flatMap]

theorem mem_chainEdges
    {attributes : Attributes} {statement : Statement} :
    {endpoints : List Endpoint} →
    (statement ∈ chainEdges attributes endpoints ↔
      ∃ first second, [first, second] <:+: endpoints ∧
        ∃ head ∈ first.nodeRefs, ∃ tail ∈ second.nodeRefs,
          .edge head tail attributes = statement)
  | [] | [_] => by
      constructor
      · intro hmem
        cases hmem
      · rintro ⟨_, _, hinfix, -⟩
        have hlength := hinfix.length_le
        simp at hlength
  | first :: second :: rest => by
      rw [chainEdges_cons, List.mem_append, mem_crossEdges, mem_chainEdges]
      constructor
      · rintro (hedge | ⟨a, b, hinfix, hedge⟩)
        · exact ⟨first, second, List.infix_append' [] [first, second] rest, hedge⟩
        · exact ⟨a, b, List.infix_cons hinfix, hedge⟩
      · rintro ⟨a, b, hinfix, hedge⟩
        rcases List.infix_cons_iff.1 hinfix with hfront | hinfix
        · simp only [List.cons_prefix_cons] at hfront
          obtain ⟨rfl, rfl, -⟩ := hfront
          exact Or.inl hedge
        · exact Or.inr ⟨a, b, hinfix, hedge⟩

theorem mem_nodeRefs_ofStatements
    {statements : List Statement} {ref : NodeRef} :
    ref ∈ (Content.ofStatements statements).nodeRefs ↔
      ∃ statement ∈ statements, ref ∈ statement.nodeRefs :=
  List.mem_eraseDups.trans mem_nodeRefsList

/-- What a chain expands into declares the nodes of its subgraphs, and the nodes of a list of nodes
if a neighbour of it stands for some node. -/
theorem mem_nodeRefs_expandChain
    {endpoints : List Endpoint} {attributes : Attributes} {ref : NodeRef} :
    ref ∈ (expandChain endpoints attributes).nodeRefs ↔
      ∃ endpoint ∈ endpoints, endpoint.IsKept endpoints ∧ ref ∈ endpoint.nodeRefs := by
  rw [expandChain, mem_nodeRefs_ofStatements]
  constructor
  · rintro ⟨statement, hstatement, href⟩
    rcases List.mem_append.1 hstatement with hstatement | hstatement
    · obtain ⟨endpoint, hmem, hsome⟩ := List.mem_filterMap.1 hstatement
      cases endpoint with
      | nodes refs =>
          cases hsome
      | subgraph id content =>
          obtain rfl := Option.some.inj hsome
          exact ⟨_, hmem, Or.inl rfl, List.mem_eraseDups.2 href⟩
    · obtain ⟨first, second, hinfix, head, hhead, tail, htail, rfl⟩ := mem_chainEdges.1 hstatement
      rcases List.mem_pair.1 href with rfl | rfl
      · exact ⟨first, hinfix.subset List.mem_cons_self,
          Or.inr ⟨second, Or.inl hinfix, List.ne_nil_of_mem htail⟩, hhead⟩
      · exact ⟨second, hinfix.subset (List.mem_cons_of_mem _ List.mem_cons_self),
          Or.inr ⟨first, Or.inr hinfix, List.ne_nil_of_mem hhead⟩, htail⟩
  · rintro ⟨endpoint, hmem, hkept, href⟩
    rcases hkept with hsubgraph | ⟨neighbour, hbeside, hne⟩
    · cases endpoint with
      | nodes refs =>
          cases hsubgraph
      | subgraph id content =>
          exact ⟨content.toSubgraph id,
            List.mem_append_left _ (List.mem_filterMap.2 ⟨_, hmem, rfl⟩),
            List.mem_eraseDups.1 href⟩
    · obtain ⟨other, hother⟩ := List.exists_mem_of_ne_nil _ hne
      rcases hbeside with hinfix | hinfix
      · refine ⟨.edge ref other attributes, List.mem_append_right _ ?_, List.mem_cons_self⟩
        exact mem_chainEdges.2 ⟨_, _, hinfix, ref, href, other, hother, rfl⟩
      · refine ⟨.edge other ref attributes, List.mem_append_right _ ?_,
          List.mem_cons_of_mem _ List.mem_cons_self⟩
        exact mem_chainEdges.2 ⟨_, _, hinfix, other, hother, ref, href, rfl⟩

end Kept

end DotCascade
