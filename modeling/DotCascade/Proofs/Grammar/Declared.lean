import DotCascade.Proofs.Grammar.Preservation
import DotCascade.Proofs.Graph.Chains
import DotCascade.Proofs.Reading.Results

/-!
# The nodes that a source declares

`Symbol.declared` lists the nodes that the meaning of a symbol declares: those of
a content, and of a chain those of its subgraphs.  No action drops what one of
its symbols declares (`carries_action`), so what a statement declares at any depth
of a derivation is declared by the whole.

The chains of a derivation are those of its edge statements, as they are written.
What they expand into is declared, and this is all that is left of them: the nodes
of a list are lost if its neighbours are subgraphs without nodes
(`nodeRefs_expandChain`, `not_mem_nodeRefs_expandChain`).
-/

namespace DotCascade

open Grammar Reading

deriving instance DecidableEq for Endpoint

/-- The nodes that an end of a chain declares by itself. -/
def Endpoint.declared : Endpoint → List NodeRef
  | nodes _ => []
  | subgraph _ content => Statement.nodeRefsList content.statements

theorem mem_nodeRefsList_append
    {ref : NodeRef} {statements later : List Statement} :
    ref ∈ Statement.nodeRefsList (statements ++ later) ↔
      ref ∈ Statement.nodeRefsList statements ∨ ref ∈ Statement.nodeRefsList later := by
  rw [nodeRefsList_eq_flatMap, nodeRefsList_eq_flatMap, nodeRefsList_eq_flatMap,
    List.flatMap_append, List.mem_append]

theorem mem_expandChain_of_isKept
    {endpoints : List Endpoint} {endpoint : Endpoint} {ref : NodeRef} (hmem : endpoint ∈ endpoints)
    (hkept : endpoint.IsKept endpoints) (href : ref ∈ endpoint.nodeRefs)
    (attributes : Attributes) :
    ref ∈ Statement.nodeRefsList (expandChain endpoints attributes).statements :=
  List.mem_eraseDups.1 (mem_nodeRefs_expandChain.2 ⟨endpoint, hmem, hkept, href⟩)

/-- What a chain expands into declares what the ends of the chain declare by themselves. -/
theorem mem_expandChain_of_declared
    {endpoints : List Endpoint} {ref : NodeRef} (h : ref ∈ endpoints.flatMap Endpoint.declared)
    (attributes : Attributes) :
    ref ∈ Statement.nodeRefsList (expandChain endpoints attributes).statements := by
  obtain ⟨endpoint, hmem, href⟩ := List.mem_flatMap.1 h
  cases endpoint with
  | nodes refs =>
      cases href
  | subgraph id content =>
      exact mem_expandChain_of_isKept hmem (Or.inl rfl) (List.mem_eraseDups.2 href) attributes

namespace Grammar

section Meanings

/-- The nodes that the meaning of a phrase declares. -/
def Phrase.declared : (result : Phrase) → result.Meaning → List NodeRef
  | .graph, (value : Graph) => Statement.nodeRefsList value.content.statements
  | .graphBody, (value : Content) | .block, (value : Content) | .statements, (value : Content)
  | .entry, (value : Content) | .statement, (value : Content) =>
      Statement.nodeRefsList value.statements
  | .subgraph, (value : Option Atom × Content) => Statement.nodeRefsList value.2.statements
  | .chain, (value : List Endpoint) => value.flatMap Endpoint.declared
  | .link, (value : Endpoint) | .endpoint, (value : Endpoint) => value.declared
  | _, _ => []

/-- The nodes that the meaning of a symbol declares. -/
def Symbol.declared : (symbol : Symbol) → symbol.Meaning → List NodeRef
  | .word _, _ => []
  | .phrase result, value => result.declared value

/-- The meanings of a symbol declare no nodes. -/
def Symbol.isSilent : Symbol → Bool
  | .phrase .graph | .phrase .graphBody | .phrase .block | .phrase .statements | .phrase .entry
  | .phrase .statement | .phrase .subgraph | .phrase .chain | .phrase .link | .phrase .endpoint =>
      false
  | _ => true

theorem declared_of_isSilent
    {symbol : Symbol} (h : symbol.isSilent = true) (value : symbol.Meaning) :
    symbol.declared value = [] := by
  match symbol with
  | .word _ =>
      rfl
  | .phrase result =>
      cases result with
      | graph | graphBody | block | statements | entry | statement | subgraph | chain | link
      | endpoint =>
          cases h
      | _ =>
          rfl

end Meanings

section Actions

variable {ref : NodeRef} {result : Type} {welcome : result → Prop}

/-- If one of the meanings that an action takes declares a node, the action makes something
welcome, whatever the others are. -/
def Carries (ref : NodeRef) (welcome : result → Prop) :
    (symbols : List Symbol) → Action result symbols → Prop
  | [], _ => True
  | symbol :: rest, action =>
      ∀ value : symbol.Meaning,
        (ref ∈ symbol.declared value → Keeps (fun _ _ => True) welcome rest (action value)) ∧
          Carries ref welcome rest (action value)

theorem carries_behind
    {symbol : Symbol} {rest : List Symbol} {action : Action result (symbol :: rest)}
    (hsilent : symbol.isSilent = true)
    (h : ∀ value : symbol.Meaning, Carries ref welcome rest (action value)) :
    Carries ref welcome (symbol :: rest) action := by
  intro value
  refine ⟨fun hmem => ?_, h value⟩
  rw [declared_of_isSilent hsilent] at hmem
  cases hmem

theorem carries_of_isSilent
    (symbols : List Symbol) (h : symbols.all Symbol.isSilent = true)
    (action : Action result symbols) :
    Carries ref welcome symbols action := by
  induction symbols with
  | nil =>
      trivial
  | cons symbol rest ih =>
      rw [List.all_cons, Bool.and_eq_true] at h
      exact carries_behind h.1 fun value => ih h.2 (action value)

/-- What one of its symbols declares is declared by what a production makes. -/
theorem carries_action
    (ref : NodeRef) {result : Phrase} {symbols : List Symbol}
    (production : Production result symbols) :
    Carries ref (fun value => ref ∈ result.declared value) symbols production.action := by
  cases production with
  | namelessGraph | namelessSubgraph | edgeTo =>
      exact carries_behind rfl fun _ _ => ⟨id, trivial⟩
  | namedGraph | namedSubgraph =>
      exact carries_behind rfl fun _ => carries_behind rfl fun _ _ => ⟨id, trivial⟩
  | fullGraphBody | fullBlock =>
      exact carries_behind rfl fun _ _ => ⟨fun h _ _ => h, carries_of_isSilent _ rfl _⟩
  | bareSubgraph | firstEntry | openEntry | subgraphEndpoint =>
      exact fun _ => ⟨id, trivial⟩
  | closedEntry =>
      exact fun _ => ⟨fun h _ _ => h, carries_of_isSilent _ rfl _⟩
  | laterEntry =>
      intro before
      refine ⟨fun h entry _ => ?_, fun entry => ⟨fun h => ?_, trivial⟩⟩
      · exact mem_nodeRefsList_append.2 (Or.inl h)
      · exact mem_nodeRefsList_append.2 (Or.inr h)
  | plainChain =>
      intro endpoints
      exact ⟨fun h => mem_expandChain_of_declared h _, trivial⟩
  | chainWithAttributes =>
      intro endpoints
      exact ⟨fun h _ _ => mem_expandChain_of_declared h _, carries_of_isSilent _ rfl _⟩
  | subgraphStatement =>
      intro subgraph
      exact ⟨fun h => mem_nodeRefsList.2 ⟨_, List.mem_singleton_self _, h⟩, trivial⟩
  | chainFromNodes =>
      refine carries_behind rfl fun refs next => ⟨fun h => ?_, trivial⟩
      exact List.mem_flatMap.2 ⟨next, List.mem_cons_of_mem _ List.mem_cons_self, h⟩
  | chainFromSubgraph =>
      intro subgraph
      refine ⟨fun h next _ => ?_, fun next => ⟨fun h => ?_, trivial⟩⟩
      · exact List.mem_flatMap.2 ⟨_, List.mem_cons_self, h⟩
      · exact List.mem_flatMap.2 ⟨next, List.mem_cons_of_mem _ List.mem_cons_self, h⟩
  | longerChain =>
      intro endpoints
      refine ⟨fun h next _ => ?_, fun next => ⟨fun h => ?_, trivial⟩⟩
      · obtain ⟨endpoint, hmem, href⟩ := List.mem_flatMap.1 h
        exact List.mem_flatMap.2 ⟨endpoint, List.mem_append_left _ hmem, href⟩
      · exact List.mem_flatMap.2 ⟨next, List.mem_append_right _ List.mem_cons_self, h⟩
  | _ =>
      exact carries_of_isSilent _ rfl _

end Actions

section Chains

/-- The chain of an edge statement that a production makes. -/
def Production.chains :
    {result : Phrase} → {symbols : List Symbol} →
    Production result symbols → Forest symbols → List (List Endpoint)
  | _, _, .plainChain, .cons chain _ => [chain.meaning]
  | _, _, .chainWithAttributes, .cons chain _ => [chain.meaning]
  | _, _, _, _ => []

mutual

/-- The chains of the edge statements in a derivation. -/
def Tree.chains : {symbol : Symbol} → Tree symbol → List (List Endpoint)
  | _, .leaf _ _ => []
  | _, .node production children => production.chains children ++ children.chains

/-- The chains of the edge statements in the derivations of a row. -/
def Forest.chains : {symbols : List Symbol} → Forest symbols → List (List Endpoint)
  | _, .nil => []
  | _, .cons tree later => tree.chains ++ later.chains

end

variable {endpoints : List Endpoint} {endpoint : Endpoint} {ref : NodeRef}

/-- An edge statement declares the nodes of its chain that are kept. -/
theorem declared_of_chains
    {result : Phrase} {symbols : List Symbol} (production : Production result symbols)
    (children : Forest symbols) (h : endpoints ∈ production.chains children)
    (hmem : endpoint ∈ endpoints) (hkept : endpoint.IsKept endpoints)
    (href : ref ∈ endpoint.nodeRefs) :
    ref ∈ result.declared (Tree.node production children).meaning := by
  cases production with
  | plainChain =>
      match children with
      | .cons chain .nil =>
          obtain rfl := List.mem_singleton.1 h
          rw [meaning_one]
          exact mem_expandChain_of_isKept hmem hkept href _
  | chainWithAttributes =>
      match children with
      | .cons chain (.cons pairs .nil) =>
          obtain rfl := List.mem_singleton.1 h
          rw [meaning_two]
          exact mem_expandChain_of_isKept hmem hkept href _
  | _ =>
      cases h

mutual

/-- The meaning of a derivation declares the nodes that are kept of each chain in it. -/
theorem declared_of_mem_chains
    {symbol : Symbol} (tree : Tree symbol) (h : endpoints ∈ tree.chains)
    (hmem : endpoint ∈ endpoints) (hkept : endpoint.IsKept endpoints)
    (href : ref ∈ endpoint.nodeRefs) :
    ref ∈ symbol.declared tree.meaning := by
  match symbol, tree with
  | _, .leaf _ _ =>
      rw [Tree.chains] at h
      cases h
  | .phrase result, .node production children =>
      rw [Tree.chains, List.mem_append] at h
      rcases h with h | h
      · exact declared_of_chains production children h hmem hkept href
      · rw [Tree.meaning]
        exact welcome_of_mem_chains children h hmem hkept href (carries_action ref production)

theorem welcome_of_mem_chains
    {symbols : List Symbol} (forest : Forest symbols) (h : endpoints ∈ forest.chains)
    (hmem : endpoint ∈ endpoints) (hkept : endpoint.IsKept endpoints)
    (href : ref ∈ endpoint.nodeRefs) {result : Type} {welcome : result → Prop}
    {action : Action result symbols} (haction : Carries ref welcome symbols action) :
    welcome (forest.feed action) := by
  match symbols, forest with
  | _, .nil =>
      rw [Forest.chains] at h
      cases h
  | _, .cons tree later =>
      rw [Forest.chains, List.mem_append] at h
      rw [Forest.feed]
      obtain ⟨hfirst, hlater⟩ := haction tree.meaning
      rcases h with h | h
      · -- Once the node has been declared, nothing is asked of the other meanings.
        have hcarried := hfirst (declared_of_mem_chains tree h hmem hkept href)
        exact keeps_feed (fun _ => keeps_of_forall (fun _ => trivial) _ _) later
          (fun _ _ => trivial) hcarried
      · exact welcome_of_mem_chains later h hmem hkept href hlater

end

end Chains

end Grammar

/-- What a chain expands into declares exactly the nodes of its subgraphs and of the lists of nodes
that have a neighbour which stands for some node.  A graph declares all these nodes of every chain
in its source. -/
theorem nodeRefs_expandChain
    (endpoints : List Endpoint) (attributes : Attributes) :
    (∀ ref, ref ∈ (expandChain endpoints attributes).nodeRefs ↔
      ∃ endpoint ∈ endpoints, endpoint.IsKept endpoints ∧ ref ∈ endpoint.nodeRefs) ∧
      ∀ (source : String) (graph : Graph), Graph.parse source = .ok graph →
        ∃ tree, Reading.read .graph source.toList = .ok tree ∧ tree.meaning = graph ∧
          (endpoints ∈ tree.chains → ∀ endpoint ∈ endpoints, endpoint.IsKept endpoints →
            endpoint.nodeRefs ⊆ graph.content.nodeRefs) := by
  refine ⟨fun ref => mem_nodeRefs_expandChain, fun source graph hparse => ?_⟩
  obtain ⟨tree, hread, rfl⟩ := Graph.parse_eq_ok_iff.1 hparse
  refine ⟨tree, hread, rfl, fun hchain endpoint hmem hkept ref href => ?_⟩
  exact List.mem_eraseDups.2 (declared_of_mem_chains tree hchain hmem hkept href)

/-- The list of nodes stands beside a subgraph with a node, and another subgraph has none. -/
theorem nodeRefs_expandChain_subgraphs :
    let source := "digraph\x7bsubgraph\x7ba,b:p->\x7bc\x7d->\x7b\x7d\x7d\x7d"
    let ends : Endpoint := .nodes [⟨.text "a", none⟩, ⟨.text "b", some ⟨.text "p", none⟩⟩]
    let filled : Endpoint :=
      .subgraph none (.ofStatements [.node (.text "c") Attributes.empty])
    let endpoints := [ends, filled, .subgraph none Content.empty]
    ∃ graph tree, Graph.parse source = .ok graph ∧ Reading.read .graph source.toList = .ok tree ∧
      endpoints ∈ tree.chains ∧ ends.IsKept endpoints ∧
      ends.nodeRefs ⊆ graph.content.nodeRefs := by
  intro source ends filled endpoints
  have hsome : (Graph.parse source).toOption.isSome = true := by
    decide +kernel
  have hchains :
      (Reading.read .graph source.toList).toOption.any
        (fun tree => endpoints ∈ tree.chains) = true := by
    decide +kernel
  have hkept : ends.IsKept endpoints :=
    Or.inr ⟨filled, Or.inl (List.infix_append' [] [ends, filled] _), by decide⟩
  obtain ⟨graph, hgraph⟩ := Option.isSome_iff_exists.1 hsome
  have hparse := eq_ok_of_toOption hgraph
  obtain ⟨tree, hread, -, hdeclared⟩ :=
    (nodeRefs_expandChain endpoints Attributes.empty).2 source graph hparse
  have hchain : endpoints ∈ tree.chains := by
    rw [hread] at hchains
    exact of_decide_eq_true hchains
  exact ⟨graph, tree, hparse, hread, hchain, hkept,
    hdeclared hchain ends List.mem_cons_self hkept⟩

/-- A list of nodes that stands beside a subgraph without nodes leaves no node behind. -/
theorem not_mem_nodeRefs_expandChain :
    let a : NodeRef := ⟨.text "a", none⟩
    let endpoints : List Endpoint := [.nodes [a], .subgraph none Content.empty]
    (∃ endpoint ∈ endpoints, a ∈ endpoint.nodeRefs) ∧
      a ∉ (expandChain endpoints Attributes.empty).nodeRefs ∧
      Graph.parse "graph\x7ba--\x7b\x7d\x7d" =
        .ok ⟨none, false, false, expandChain endpoints Attributes.empty⟩ := by
  decide +kernel

end DotCascade
