import DotCascade.Grammar.Tree
import DotCascade.Graph.Chain
import DotCascade.Stylesheet.Basic

/-!
# The meaning of derivations

Every phrase has a type of meanings, and every production says how the meaning
of its phrase comes from the meanings of its symbols.  The meaning of a tree
follows by recursion.

A statement means a content, because it may stand for several statements or for
attributes alone; statements in a row merge their contents.
-/

namespace DotCascade
namespace Grammar

/-- The words that open a graph. -/
structure GraphKind where
  strict : Bool
  directed : Bool

/-- The type of the meanings of a phrase. -/
def Phrase.Meaning : Phrase → Type
  | graph => Graph
  | graphKind => GraphKind
  | graphBody | block | statements | entry | statement => Content
  | subgraph => Option Atom × Content
  | chain => List Endpoint
  | link | endpoint => Endpoint
  | nodeRefs => List NodeRef
  | nodeRef => NodeRef
  | atom => Atom
  | quoted => String
  | attributes | bracketed | pairs | declarations => List Attribute
  | pairEntry | pair | declaration => Attribute
  | rules | rule => List Rule
  | selectors | selector => List Selector
  | entity => Entity
  | classes => List String

/-- The type of the meanings of a symbol. -/
def Symbol.Meaning : Symbol → Type
  | word terminal => terminal.Lexeme
  | phrase result => result.Meaning

/-- The functions from the meanings of a row of symbols. -/
def Action (result : Type) : List Symbol → Type
  | [] => result
  | symbol :: rest => symbol.Meaning → Action result rest

/-- The statements that declare several nodes with the same attributes.  A port matters only to
an edge and is left out. -/
def declareNodes (refs : List NodeRef) (attributes : List Attribute) : Content :=
  .ofStatements (refs.map fun ref => .node ref.id (.ofList attributes))

/-- The rules that give the same attributes to several selectors. -/
def rulesFor (selectors : List Selector) (attributes : List Attribute) : List Rule :=
  selectors.map fun selector => ⟨selector, .ofList attributes⟩

/-- The meaning of a phrase from the meanings of the symbols that a production takes. -/
def Production.action :
    {result : Phrase} → {symbols : List Symbol} →
    Production result symbols → Action result.Meaning symbols
  | _, _, namelessGraph => fun (kind : GraphKind) (body : Content) =>
      (⟨none, kind.strict, kind.directed, body⟩ : Graph)
  | _, _, namedGraph => fun (kind : GraphKind) (id : Atom) (body : Content) =>
      (⟨some id, kind.strict, kind.directed, body⟩ : Graph)
  | _, _, undirected => fun (_ : Unit) => (⟨false, false⟩ : GraphKind)
  | _, _, directed => fun (_ : Unit) => (⟨false, true⟩ : GraphKind)
  | _, _, strictUndirected => fun (_ _ : Unit) => (⟨true, false⟩ : GraphKind)
  | _, _, strictDirected => fun (_ _ : Unit) => (⟨true, true⟩ : GraphKind)
  | _, _, emptyGraphBody => fun (_ _ : Unit) => Content.empty
  | _, _, fullGraphBody => fun (_ : Unit) (body : Content) (_ : Unit) => body
  | _, _, emptyBlock => fun (_ _ : Unit) => Content.empty
  | _, _, fullBlock => fun (_ : Unit) (body : Content) (_ : Unit) => body
  | _, _, bareSubgraph => fun (body : Content) => (none, body)
  | _, _, namelessSubgraph => fun (_ : Unit) (body : Content) => (none, body)
  | _, _, namedSubgraph => fun (_ : Unit) (id : Atom) (body : Content) => (some id, body)
  | _, _, firstEntry => fun (entry : Content) => entry
  | _, _, laterEntry => fun (before entry : Content) => before.merge entry
  | _, _, openEntry => fun (statement : Content) => statement
  | _, _, closedEntry => fun (statement : Content) (_ : Unit) => statement
  | _, _, assignment => fun (key : Atom) (_ : Unit) (value : Atom) =>
      Content.ofAttributes (.ofList [(key, value)])
  | _, _, graphAttributes => fun (_ : Unit) (pairs : List Attribute) =>
      Content.ofAttributes (.ofList pairs)
  | _, _, nodeDefaults => fun (_ : Unit) (pairs : List Attribute) =>
      Content.ofStatements [.defaults .node (.ofList pairs)]
  | _, _, edgeDefaults => fun (_ : Unit) (pairs : List Attribute) =>
      Content.ofStatements [.defaults .edge (.ofList pairs)]
  | _, _, plainChain => fun (endpoints : List Endpoint) =>
      expandChain endpoints Attributes.empty
  | _, _, chainWithAttributes => fun (endpoints : List Endpoint) (pairs : List Attribute) =>
      expandChain endpoints (.ofList pairs)
  | _, _, subgraphStatement => fun (subgraph : Option Atom × Content) =>
      Content.ofStatements [subgraph.2.toSubgraph subgraph.1]
  | _, _, plainNodes => fun (refs : List NodeRef) => declareNodes refs []
  | _, _, nodesWithAttributes => fun (refs : List NodeRef) (pairs : List Attribute) =>
      declareNodes refs pairs
  | _, _, chainFromNodes => fun (refs : List NodeRef) (next : Endpoint) =>
      [Endpoint.nodes refs, next]
  | _, _, chainFromSubgraph => fun (subgraph : Option Atom × Content) (next : Endpoint) =>
      [Endpoint.subgraph subgraph.1 subgraph.2, next]
  | _, _, longerChain => fun (endpoints : List Endpoint) (next : Endpoint) =>
      endpoints ++ [next]
  | _, _, edgeTo => fun (_ : Unit) (endpoint : Endpoint) => endpoint
  | _, _, nodesEndpoint => fun (refs : List NodeRef) => Endpoint.nodes refs
  | _, _, subgraphEndpoint => fun (subgraph : Option Atom × Content) =>
      Endpoint.subgraph subgraph.1 subgraph.2
  | _, _, firstNodeRef => fun (ref : NodeRef) => [ref]
  | _, _, laterNodeRef => fun (refs : List NodeRef) (_ : Unit) (ref : NodeRef) =>
      refs ++ [ref]
  | _, _, wholeNode => fun (id : Atom) => (⟨id, none⟩ : NodeRef)
  | _, _, nodePort => fun (id : Atom) (_ : Unit) (name : Atom) =>
      (⟨id, some ⟨name, none⟩⟩ : NodeRef)
  | _, _, nodePortPoint =>
      fun (id : Atom) (_ : Unit) (name : Atom) (_ : Unit) (point : Atom) =>
        (⟨id, some ⟨name, some point⟩⟩ : NodeRef)
  | _, _, identifierAtom => fun (text : String) => Atom.text text
  | _, _, numberAtom => fun (text : String) => Atom.text text
  | _, _, quotedAtom => fun (text : String) => Atom.text text
  | _, _, markupAtom => fun (nodes : List Markup.Node) => Atom.markup nodes
  | _, _, firstString => fun (text : String) => text
  | _, _, laterString => fun (before : String) (_ : Unit) (text : String) => before ++ text
  | _, _, firstBracketed => fun (pairs : List Attribute) => pairs
  | _, _, laterBracketed => fun (before pairs : List Attribute) => before ++ pairs
  | _, _, emptyBracketed => fun (_ _ : Unit) => ([] : List Attribute)
  | _, _, fullBracketed => fun (_ : Unit) (pairs : List Attribute) (_ : Unit) => pairs
  | _, _, firstPair => fun (pair : Attribute) => [pair]
  | _, _, laterPair => fun (before : List Attribute) (pair : Attribute) => before ++ [pair]
  | _, _, openPair => fun (pair : Attribute) => pair
  | _, _, commaPair => fun (pair : Attribute) (_ : Unit) => pair
  | _, _, semicolonPair => fun (pair : Attribute) (_ : Unit) => pair
  | _, _, keyValuePair => fun (key : Atom) (_ : Unit) (value : Atom) => (key, value)
  | _, _, firstRule => fun (rules : List Rule) => rules
  | _, _, laterRule => fun (before rules : List Rule) => before ++ rules
  | _, _, emptyRule => fun (selectors : List Selector) (_ _ : Unit) => rulesFor selectors []
  | _, _, fullRule =>
      fun (selectors : List Selector) (_ : Unit) (pairs : List Attribute) (_ : Unit) =>
        rulesFor selectors pairs
  | _, _, firstSelector => fun (selectors : List Selector) => selectors
  | _, _, laterSelector => fun (before : List Selector) (_ : Unit) (selectors : List Selector) =>
      before ++ selectors
  | _, _, entitySelector => fun (entity : Entity) => [Selector.general entity]
  | _, _, entityClassSelector => fun (entity : Entity) (names : List String) =>
      [(⟨entity, .ofList names⟩ : Selector)]
  | _, _, classSelector => fun (names : List String) =>
      Entity.all.map fun entity => (⟨entity, .ofList names⟩ : Selector)
  | _, _, nodeEntity => fun (_ : Unit) => Entity.node
  | _, _, edgeEntity => fun (_ : Unit) => Entity.edge
  | _, _, graphEntity => fun (_ : Unit) => Entity.graph
  | _, _, firstClass => fun (name : String) => [name]
  | _, _, laterClass => fun (names : List String) (name : String) => names ++ [name]
  | _, _, firstDeclaration => fun (declaration : Attribute) => [declaration]
  | _, _, laterDeclaration => fun (before : List Attribute) (declaration : Attribute) =>
      before ++ [declaration]
  | _, _, openDeclaration => fun (key : Atom) (_ : Unit) (value : Atom) => (key, value)
  | _, _, closedDeclaration =>
      fun (key : Atom) (_ : Unit) (value : Atom) (_ : Unit) => (key, value)

mutual

/-- The meaning of a tree. -/
def Tree.meaning : {symbol : Symbol} → Tree symbol → symbol.Meaning
  | _, .leaf _ lexeme => lexeme
  | _, .node production children => children.feed production.action

/-- An action on the meanings of the trees of a forest. -/
def Forest.feed {result : Type} :
    {symbols : List Symbol} → Forest symbols → Action result symbols → result
  | _, .nil, value => value
  | _, .cons tree later, action => later.feed (action tree.meaning)

end

section Feeding

variable {a b c d : Symbol}

theorem feed_nil
    {α : Type} (value : Action α []) :
    Forest.nil.feed value = value := by
  rw [Forest.feed]

theorem feed_cons
    {α : Type} {first : Symbol} {rest : List Symbol} (tree : Tree first) (later : Forest rest)
    (action : Action α (first :: rest)) :
    (Forest.cons tree later).feed action = later.feed (action tree.meaning) := by
  rw [Forest.feed]

theorem meaning_leaf
    (terminal : Terminal) (lexeme : terminal.Lexeme) :
    (Tree.leaf terminal lexeme).meaning = lexeme := by
  rw [Tree.meaning]

variable {result : Phrase}

theorem meaning_one
    (production : Production result [a]) (x : Tree a) :
    (Tree.node production (.cons x .nil)).meaning = production.action x.meaning := by
  rw [Tree.meaning]
  exact (feed_cons x .nil production.action).trans (feed_nil _)

theorem meaning_two
    (production : Production result [a, b]) (x : Tree a) (y : Tree b) :
    (Tree.node production (.cons x (.cons y .nil))).meaning =
      production.action x.meaning y.meaning := by
  rw [Tree.meaning]
  exact (feed_cons x _ production.action).trans ((feed_cons y .nil _).trans (feed_nil _))

theorem meaning_three
    (production : Production result [a, b, c]) (x : Tree a) (y : Tree b) (z : Tree c) :
    (Tree.node production (.cons x (.cons y (.cons z .nil)))).meaning =
      production.action x.meaning y.meaning z.meaning := by
  rw [Tree.meaning]
  exact (feed_cons x _ production.action).trans <|
    (feed_cons y _ _).trans ((feed_cons z .nil _).trans (feed_nil _))

theorem meaning_four
    (production : Production result [a, b, c, d]) (x : Tree a) (y : Tree b) (z : Tree c)
    (w : Tree d) :
    (Tree.node production (.cons x (.cons y (.cons z (.cons w .nil))))).meaning =
      production.action x.meaning y.meaning z.meaning w.meaning := by
  rw [Tree.meaning]
  exact (feed_cons x _ production.action).trans <| (feed_cons y _ _).trans <|
    (feed_cons z _ _).trans ((feed_cons w .nil _).trans (feed_nil _))

end Feeding

end Grammar
end DotCascade
