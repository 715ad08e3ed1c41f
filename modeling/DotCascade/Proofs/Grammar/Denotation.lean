import DotCascade.Proofs.Grammar.Pattern

/-!
# What derivations denote

Every nonterminal denotes a value that comes from the values in its pattern.  A
statement denotes a fragment, that is a content of attributes or statements, or
it is a subgraph; a body folds them in order.  The attributes of an element come
from all its pairs of brackets, and a later pair of a key overrides an earlier one.
-/

namespace DotCascade
namespace Grammar

/-- The type of what a nonterminal denotes. -/
def Nonterminal.Denoted : Nonterminal → Type
  | atom => Atom
  | quoted => String
  | attrList => Attributes
  | attr | declaration => Attribute
  | graph => Graph
  | body | graphAttrAssign | graphAttrBlock | attrStmt | edgeStmt | nodeStmt => Content
  | statement => Content ⊕ (Option Atom × Content)
  | endpoint => Endpoint
  | subgraph => Option Atom × Content
  | nodeIds => List NodeRef
  | nodeId => NodeRef
  | stylesheet => Stylesheet
  | rule => List Rule
  | selector => List Selector

/-- A content with one more statement of a body. -/
def addStatement (content : Content) : Content ⊕ (Option Atom × Content) → Content
  | .inl fragment => content.merge fragment
  | .inr (id, inner) => content.withStatement (inner.toSubgraph id)

/-- The attributes of the pairs in several brackets. -/
def bracketedPairs (brackets : List (List Attribute)) : Attributes :=
  .ofList brackets.flatten

/-- What a nonterminal denotes, from what is denoted in its pattern. -/
def Nonterminal.denote : Algebra Nonterminal.Denoted
  | atom => fun (value : String ⊕ String ⊕ String ⊕ List Markup.Node) =>
      match value with
      | .inl text | .inr (.inl text) | .inr (.inr (.inl text)) => Atom.text text
      | .inr (.inr (.inr nodes)) => Atom.markup nodes
  | quoted => fun ((first, later) : String × List (Unit × String)) =>
      ((later.map Prod.snd).foldl (· ++ ·) first : String)
  | attrList => fun
      ((first, later) :
        (Unit × List (Attribute × Option (Unit ⊕ Unit)) × Unit) ×
          List (Unit × List (Attribute × Option (Unit ⊕ Unit)) × Unit)) =>
      bracketedPairs ((first :: later).map fun (_, pairs, _) => pairs.map Prod.fst)
  | attr => fun ((key, _, value) : Atom × Unit × Atom) => (key, value)
  | graph => fun
      ((strict, kind, id, _, content, _) :
        Option Unit × (Unit ⊕ Unit) × Option Atom × Unit × Content × Unit) =>
      (⟨id, strict.isSome, kind.isRight, content⟩ : Graph)
  | body => fun (statements : List ((Content ⊕ (Option Atom × Content)) × Option Unit)) =>
      (statements.map Prod.fst).foldl addStatement Content.empty
  | statement => fun
      (value : Content ⊕ Content ⊕ Content ⊕ Content ⊕ (Option Atom × Content) ⊕ Content) =>
      match value with
      | .inl fragment | .inr (.inl fragment) | .inr (.inr (.inl fragment))
      | .inr (.inr (.inr (.inl fragment)))
      | .inr (.inr (.inr (.inr (.inr fragment)))) => Sum.inl fragment
      | .inr (.inr (.inr (.inr (.inl inner)))) => Sum.inr inner
  | graphAttrAssign => fun ((key, _, value) : Atom × Unit × Atom) =>
      Content.ofAttributes (.ofList [(key, value)])
  | graphAttrBlock => fun ((_, attributes) : Unit × Attributes) =>
      Content.ofAttributes attributes
  | attrStmt => fun ((keyword, attributes) : (Unit ⊕ Unit) × Attributes) =>
      Content.ofStatements [.defaults (if keyword.isLeft then .node else .edge) attributes]
  | edgeStmt => fun
      ((first, (second, later), attributes) :
        Endpoint × ((Unit × Endpoint) × List (Unit × Endpoint)) × Option Attributes) =>
      expandChain (first :: (second :: later).map Prod.snd) (attributes.getD Attributes.empty)
  | endpoint => fun (value : (Option Atom × Content) ⊕ List NodeRef) =>
      match value with
      | .inl (id, content) => Endpoint.subgraph id content
      | .inr refs => Endpoint.nodes refs
  | subgraph => fun
      (value : (Unit × Option Atom × Unit × Content × Unit) ⊕ (Unit × Content × Unit)) =>
      match value with
      | .inl (_, id, _, content, _) => (id, content)
      | .inr (_, content, _) => (none, content)
  | nodeStmt => fun ((refs, attributes) : List NodeRef × Option Attributes) =>
      Content.ofStatements
        (refs.map fun ref => Statement.node ref.id (attributes.getD Attributes.empty))
  | nodeIds => fun ((first, later) : NodeRef × List (Unit × NodeRef)) =>
      first :: later.map Prod.snd
  | nodeId => fun ((id, port) : Atom × Option (Unit × Atom × Option (Unit × Atom))) =>
      (⟨id, port.map fun (_, name, point) => ⟨name, point.map Prod.snd⟩⟩ : NodeRef)
  | stylesheet => fun (rules : List (List Rule)) => (⟨rules.flatten⟩ : Stylesheet)
  | rule => fun
      ((first, later, _, declarations, _) :
        List Selector × List (Unit × List Selector) × Unit × List Attribute × Unit) =>
      (first ++ (later.map Prod.snd).flatten).map fun selector =>
        (⟨selector, .ofList declarations⟩ : Rule)
  | selector => fun (value : ((Unit ⊕ Unit ⊕ Unit) × List String) ⊕ (String × List String)) =>
      match value with
      | .inl (entity, names) =>
          let entity : Entity :=
            match entity with
            | .inl _ => .node
            | .inr (.inl _) => .edge
            | .inr (.inr _) => .graph
          [(⟨entity, .ofList names⟩ : Selector)]
      | .inr (first, later) =>
          Entity.all.map fun entity => (⟨entity, .ofList (first :: later)⟩ : Selector)
  | declaration => fun ((key, _, value, _) : Atom × Unit × Atom × Option Unit) => (key, value)

/-- What a derivation denotes. -/
def Derivation.denoted {nonterminal : Nonterminal} (derivation : Derivation (.one nonterminal)) :
    nonterminal.Denoted :=
  derivation.fold Nonterminal.denote

end Grammar
end DotCascade
