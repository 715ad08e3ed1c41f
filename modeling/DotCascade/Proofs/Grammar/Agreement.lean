import DotCascade.Proofs.Grammar.Correspondence
import DotCascade.Proofs.Grammar.Denotation
import DotCascade.Proofs.Graph.Merging

/-!
# Trees mean what their derivations denote

The meaning of a phrase can be read off what is denoted in its pattern
(`Phrase.read`).  Every production takes the meanings of its symbols to the meaning
of its phrase, and it takes the derivations of its symbols to the derivation of its
phrase; both come to the same (`read_derivation`).  So a tree means what its
derivation denotes.
-/

namespace DotCascade
namespace Grammar

section Meanings

/-- The content of a statement alone. -/
def statementContent : Content ⊕ (Option Atom × Content) → Content
  | .inl fragment => fragment
  | .inr (id, inner) => .ofStatements [inner.toSubgraph id]

theorem addStatement_eq
    (content : Content) (statement : Content ⊕ (Option Atom × Content)) :
    addStatement content statement = content.merge (statementContent statement) := by
  rcases statement with fragment | ⟨id, inner⟩
  · rfl
  · rfl

/-- The meaning of a phrase, from what is denoted in its pattern. -/
def Phrase.read :
    (phrase : Phrase) → phrase.pattern.Value Nonterminal.Denoted → phrase.Meaning
  | graph | subgraph | endpoint | nodeRef | atom | pair | rule | selector | declarations
  | declaration => id
  | graphKind => fun ((strict, kind) : Option Unit × (Unit ⊕ Unit)) =>
      (⟨strict.isSome, kind.isRight⟩ : GraphKind)
  | graphBody | block => fun ((_, content, _) : Unit × Content × Unit) => content
  | statements => Nonterminal.denote .body
  | entry => fun ((content, _) : (Content ⊕ (Option Atom × Content)) × Option Unit) =>
      statementContent content
  | statement => statementContent
  | chain => fun
      ((first, second, later) : Endpoint × (Unit × Endpoint) × List (Unit × Endpoint)) =>
      first :: (second :: later).map Prod.snd
  | link => fun ((_, next) : Unit × Endpoint) => next
  | nodeRefs => Nonterminal.denote .nodeIds
  | quoted => Nonterminal.denote .quoted
  | attributes => fun
      ((first, later) :
        (Unit × List (Attribute × Option (Unit ⊕ Unit)) × Unit) ×
          List (Unit × List (Attribute × Option (Unit ⊕ Unit)) × Unit)) =>
      ((first :: later).map fun (_, inner, _) => inner.map Prod.fst).flatten
  | bracketed => fun ((_, inner, _) : Unit × List (Attribute × Option (Unit ⊕ Unit)) × Unit) =>
      inner.map Prod.fst
  | pairs => fun (inner : List (Attribute × Option (Unit ⊕ Unit))) => inner.map Prod.fst
  | pairEntry => fun ((inner, _) : Attribute × Option (Unit ⊕ Unit)) => inner
  | rules => fun (inner : List (List Rule)) => inner.flatten
  | selectors => fun ((first, later) : List Selector × List (Unit × List Selector)) =>
      first ++ (later.map Prod.snd).flatten
  | entity => fun (value : Unit ⊕ Unit ⊕ Unit) =>
      match value with
      | .inl _ => Entity.node
      | .inr (.inl _) => Entity.edge
      | .inr (.inr _) => Entity.graph
  | classes => fun ((first, later) : String × List String) => first :: later

/-- The meaning of a symbol, from what is denoted in its pattern. -/
def Symbol.read :
    (symbol : Symbol) → symbol.pattern.Value Nonterminal.Denoted → symbol.Meaning
  | word _ => id
  | phrase result => result.read

/-- An action on the meanings of derivations. -/
def Derivations.feed {result : Type} :
    {symbols : List Symbol} → Derivations symbols → Action result symbols → result
  | [], _, value => value
  | symbol :: _, (first, later), action =>
      later.feed (action (symbol.read (first.fold Nonterminal.denote)))

theorem fold_concat
    {V : Nonterminal → Type} {a : Pattern} (algebra : Algebra V)
    (before : Derivation (.many a)) (last : Derivation a) :
    (before.concat last).fold algebra =
      (before.fold algebra ++ [last.fold algebra] : List (a.Value V)) := by
  match before with
  | .stop =>
      rw [Derivation.concat]
      rfl
  | .more first later =>
      rw [Derivation.concat, Derivation.fold, fold_concat algebra later last]
      rfl

theorem map_fold_concat
    {V : Nonterminal → Type} {a : Pattern} {β : Type} (algebra : Algebra V)
    (f : a.Value V → β) (before : Derivation (.many a)) (last : Derivation a) :
    List.map f ((before.concat last).fold algebra) =
      List.map f (before.fold algebra) ++ [f (last.fold algebra)] := by
  rw [fold_concat, List.map_append, List.map_singleton]

/-- The meaning of a phrase comes from those of the symbols. -/
theorem read_derivation
    {result : Phrase} {symbols : List Symbol}
    (production : Production result symbols) (children : Derivations symbols) :
    result.read ((production.derivation children).fold Nonterminal.denote) =
      children.feed production.action := by
  cases production with
  | undirected | directed | bareSubgraph | openEntry | subgraphStatement | plainNodes
  | nodesEndpoint | subgraphEndpoint | firstNodeRef | wholeNode | identifierAtom | numberAtom
  | quotedAtom | markupAtom | firstString | firstPair | openPair | entitySelector | classSelector
  | nodeEntity | edgeEntity | graphEntity | firstClass | firstDeclaration =>
      obtain ⟨first, _⟩ := children
      rfl
  | strictUndirected | strictDirected | emptyGraphBody | emptyBlock | namelessSubgraph
  | closedEntry | graphAttributes | nodeDefaults | edgeDefaults | nodesWithAttributes
  | chainFromNodes | chainFromSubgraph | edgeTo | emptyBracketed | commaPair | semicolonPair =>
      obtain ⟨first, second, _⟩ := children
      rfl
  | fullGraphBody | fullBlock | namedSubgraph | assignment | nodePort | fullBracketed
  | keyValuePair | openDeclaration =>
      obtain ⟨first, second, third, _⟩ := children
      rfl
  | closedDeclaration =>
      obtain ⟨key, colon, value, semicolon, _⟩ := children
      rfl
  | nodePortPoint =>
      obtain ⟨id, colon, name, second, point, _⟩ := children
      rfl
  | namelessGraph =>
      match children with
      | (.both _ _, .both _ (.both _ _), _) =>
          rfl
  | namedGraph =>
      match children with
      | (.both _ _, _, .both _ (.both _ _), _) =>
          rfl
  | plainChain =>
      match children with
      | (.both _ (.both _ _), _) =>
          rfl
  | chainWithAttributes =>
      match children with
      | (.both _ (.both _ _), _, _) =>
          rfl
  | emptyRule =>
      match children with
      | (.both _ _, _, _, _) =>
          rfl
  | fullRule =>
      match children with
      | (.both _ _, _, _, _, _) =>
          rfl
  | entityClassSelector =>
      match children with
      | (_, .both _ _, _) =>
          rfl
  | firstEntry =>
      match children with
      | (.both content separator, _) =>
          exact (addStatement_eq Content.empty _).trans (empty_merge _)
  | firstBracketed =>
      match children with
      | (.both _ (.both _ _), _) =>
          exact List.append_nil _
  | firstRule | firstSelector =>
      obtain ⟨first, _⟩ := children
      exact List.append_nil _
  -- A row that grows at its end grows by the value of the last derivation.
  | laterEntry =>
      match children with
      | (before, .both content separator, _) =>
          have hvalues :=
            map_fold_concat Nonterminal.denote Prod.fst before (.both content separator)
          have hbody := congrArg (List.foldl addStatement Content.empty) hvalues
          exact (hbody.trans List.foldl_append).trans (addStatement_eq _ _)
  | laterPair =>
      match children with
      | (before, .both pair separator, _) =>
          exact map_fold_concat Nonterminal.denote Prod.fst before (.both pair separator)
  | laterRule =>
      obtain ⟨before, rule, _⟩ := children
      exact (congrArg List.flatten (fold_concat _ before rule)).trans List.flatten_concat
  | laterDeclaration =>
      obtain ⟨before, declaration, _⟩ := children
      exact fold_concat _ before declaration
  | laterClass =>
      match children with
      | (.both first later, name, _) =>
          exact congrArg (List.cons _) (fold_concat _ later name)
  | laterNodeRef =>
      match children with
      | (.both first later, comma, ref, _) =>
          have hvalues := map_fold_concat Nonterminal.denote Prod.snd later (.both comma ref)
          exact congrArg (List.cons _) hvalues
  | longerChain =>
      match children with
      | (.both first (.both second later), link, _) =>
          have hvalues := map_fold_concat Nonterminal.denote Prod.snd later link
          exact congrArg (List.cons _) (congrArg (List.cons _) hvalues)
  | laterString =>
      match children with
      | (.both first later, plus, text, _) =>
          have hvalues := map_fold_concat Nonterminal.denote Prod.snd later (.both plus text)
          exact (congrArg (List.foldl _ _) hvalues).trans List.foldl_append
  | laterBracketed =>
      match children with
      | (.both first later, bracketed, _) =>
          have hvalues := map_fold_concat Nonterminal.denote Phrase.bracketed.read later bracketed
          have hflat := (congrArg List.flatten hvalues).trans List.flatten_concat
          exact (congrArg (HAppend.hAppend _) hflat).trans (List.append_assoc _ _ _).symm
  | laterSelector =>
      match children with
      | (.both first later, comma, selector, _) =>
          have hvalues := map_fold_concat Nonterminal.denote Prod.snd later (.both comma selector)
          have hflat := (congrArg List.flatten hvalues).trans List.flatten_concat
          exact (congrArg (HAppend.hAppend _) hflat).trans (List.append_assoc _ _ _).symm

mutual

/-- The meaning of a tree comes from what its derivation denotes. -/
theorem Tree.read_derivation {symbol : Symbol} (tree : Tree symbol) :
    symbol.read (tree.derivation.fold Nonterminal.denote) = tree.meaning := by
  match tree with
  | .leaf terminal lexeme =>
      rw [Tree.derivation, Tree.meaning]
      rfl
  | .node production children =>
      rw [Tree.derivation, Tree.meaning]
      exact (Grammar.read_derivation production _).trans (children.feed_derivations _)

/-- An action does the same to the derivations of a forest as to the forest. -/
theorem Forest.feed_derivations
    {result : Type} {symbols : List Symbol} (forest : Forest symbols) :
    ∀ action : Action result symbols, forest.derivations.feed action = forest.feed action := by
  match forest with
  | .nil =>
      intro value
      rw [Forest.feed]
      rfl
  | .cons tree later =>
      intro action
      rw [Forest.derivations, Forest.feed, Derivations.feed, tree.read_derivation]
      exact later.feed_derivations _

end

end Meanings

end Grammar
end DotCascade
