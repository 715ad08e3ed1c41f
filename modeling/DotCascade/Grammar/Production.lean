import DotCascade.Grammar.Symbol

/-!
# Productions

A production builds a phrase from a non-empty row of symbols.  The family below
is the whole grammar.  Repetitions grow to the left, so that a row of any length
is read without remembering more than its beginning.

The first endpoint of a chain stands in the productions of the chain itself,
because at its place a node list or a subgraph may also be a statement of its
own, and only the next word tells.
-/

namespace DotCascade
namespace Grammar

open Grammar.Symbol Grammar.Terminal Grammar.Phrase

/-- How a phrase is made of symbols. -/
inductive Production : Phrase → List Symbol → Type where
  | namelessGraph : Production .graph [phrase graphKind, phrase graphBody]
  | namedGraph : Production .graph [phrase graphKind, phrase atom, phrase graphBody]
  | undirected : Production graphKind [word .graph]
  | directed : Production graphKind [word digraph]
  | strictUndirected : Production graphKind [word strict, word .graph]
  | strictDirected : Production graphKind [word strict, word digraph]
  | emptyGraphBody : Production graphBody [word leftBrace, word rightBrace]
  | fullGraphBody :
      Production graphBody [word leftBrace, phrase statements, word rightBrace]
  | emptyBlock : Production block [word leftBrace, word rightBrace]
  | fullBlock : Production block [word leftBrace, phrase statements, word rightBrace]
  | bareSubgraph : Production .subgraph [phrase block]
  | namelessSubgraph : Production .subgraph [word .subgraph, phrase block]
  | namedSubgraph : Production .subgraph [word .subgraph, phrase atom, phrase block]
  | firstEntry : Production statements [phrase entry]
  | laterEntry : Production statements [phrase statements, phrase entry]
  | openEntry : Production entry [phrase statement]
  | closedEntry : Production entry [phrase statement, word semicolon]
  | assignment : Production statement [phrase atom, word equals, phrase atom]
  | graphAttributes : Production statement [word .graph, phrase attributes]
  | nodeDefaults : Production statement [word node, phrase attributes]
  | edgeDefaults : Production statement [word edge, phrase attributes]
  | plainChain : Production statement [phrase chain]
  | chainWithAttributes : Production statement [phrase chain, phrase attributes]
  | subgraphStatement : Production statement [phrase .subgraph]
  | plainNodes : Production statement [phrase nodeRefs]
  | nodesWithAttributes : Production statement [phrase nodeRefs, phrase attributes]
  | chainFromNodes : Production chain [phrase nodeRefs, phrase link]
  | chainFromSubgraph : Production chain [phrase .subgraph, phrase link]
  | longerChain : Production chain [phrase chain, phrase link]
  | edgeTo : Production link [word edgeOperator, phrase endpoint]
  | nodesEndpoint : Production endpoint [phrase nodeRefs]
  | subgraphEndpoint : Production endpoint [phrase .subgraph]
  | firstNodeRef : Production nodeRefs [phrase nodeRef]
  | laterNodeRef : Production nodeRefs [phrase nodeRefs, word comma, phrase nodeRef]
  | wholeNode : Production nodeRef [phrase atom]
  | nodePort : Production nodeRef [phrase atom, word colon, phrase atom]
  | nodePortPoint :
      Production nodeRef
        [phrase atom, word colon, phrase atom, word colon, phrase atom]
  | identifierAtom : Production atom [word identifier]
  | numberAtom : Production atom [word number]
  | quotedAtom : Production atom [phrase quoted]
  | markupAtom : Production atom [word markup]
  | firstString : Production quoted [word string]
  | laterString : Production quoted [phrase quoted, word plus, word string]
  | firstBracketed : Production attributes [phrase bracketed]
  | laterBracketed : Production attributes [phrase attributes, phrase bracketed]
  | emptyBracketed : Production bracketed [word leftBracket, word rightBracket]
  | fullBracketed :
      Production bracketed [word leftBracket, phrase pairs, word rightBracket]
  | firstPair : Production pairs [phrase pairEntry]
  | laterPair : Production pairs [phrase pairs, phrase pairEntry]
  | openPair : Production pairEntry [phrase pair]
  | commaPair : Production pairEntry [phrase pair, word comma]
  | semicolonPair : Production pairEntry [phrase pair, word semicolon]
  | keyValuePair : Production pair [phrase atom, word equals, phrase atom]
  | firstRule : Production rules [phrase rule]
  | laterRule : Production rules [phrase rules, phrase rule]
  | emptyRule : Production rule [phrase selectors, word leftBrace, word rightBrace]
  | fullRule :
      Production rule
        [phrase selectors, word leftBrace, phrase declarations, word rightBrace]
  | firstSelector : Production selectors [phrase selector]
  | laterSelector : Production selectors [phrase selectors, word comma, phrase selector]
  | entitySelector : Production selector [phrase entity]
  | entityClassSelector : Production selector [phrase entity, phrase classes]
  | classSelector : Production selector [phrase classes]
  | nodeEntity : Production entity [word node]
  | edgeEntity : Production entity [word edge]
  | graphEntity : Production entity [word .graph]
  | firstClass : Production classes [word className]
  | laterClass : Production classes [phrase classes, word className]
  | firstDeclaration : Production declarations [phrase declaration]
  | laterDeclaration : Production declarations [phrase declarations, phrase declaration]
  | openDeclaration : Production declaration [phrase atom, word colon, phrase atom]
  | closedDeclaration :
      Production declaration [phrase atom, word colon, phrase atom, word semicolon]

/-- A production of a given phrase together with the symbols that it takes. -/
structure Phrase.Alternative (result : Phrase) where
  {symbols : List Symbol}
  production : Production result symbols

/-- The productions of a phrase. -/
def Phrase.alternatives : (result : Phrase) → List result.Alternative
  | .graph => [⟨.namelessGraph⟩, ⟨.namedGraph⟩]
  | graphKind => [⟨.undirected⟩, ⟨.directed⟩, ⟨.strictUndirected⟩, ⟨.strictDirected⟩]
  | graphBody => [⟨.emptyGraphBody⟩, ⟨.fullGraphBody⟩]
  | block => [⟨.emptyBlock⟩, ⟨.fullBlock⟩]
  | .subgraph => [⟨.bareSubgraph⟩, ⟨.namelessSubgraph⟩, ⟨.namedSubgraph⟩]
  | statements => [⟨.firstEntry⟩, ⟨.laterEntry⟩]
  | entry => [⟨.openEntry⟩, ⟨.closedEntry⟩]
  | statement => [
      ⟨.assignment⟩, ⟨.graphAttributes⟩, ⟨.nodeDefaults⟩, ⟨.edgeDefaults⟩, ⟨.plainChain⟩,
      ⟨.chainWithAttributes⟩, ⟨.subgraphStatement⟩, ⟨.plainNodes⟩, ⟨.nodesWithAttributes⟩]
  | chain => [⟨.chainFromNodes⟩, ⟨.chainFromSubgraph⟩, ⟨.longerChain⟩]
  | link => [⟨.edgeTo⟩]
  | endpoint => [⟨.nodesEndpoint⟩, ⟨.subgraphEndpoint⟩]
  | nodeRefs => [⟨.firstNodeRef⟩, ⟨.laterNodeRef⟩]
  | nodeRef => [⟨.wholeNode⟩, ⟨.nodePort⟩, ⟨.nodePortPoint⟩]
  | atom => [⟨.identifierAtom⟩, ⟨.numberAtom⟩, ⟨.quotedAtom⟩, ⟨.markupAtom⟩]
  | quoted => [⟨.firstString⟩, ⟨.laterString⟩]
  | attributes => [⟨.firstBracketed⟩, ⟨.laterBracketed⟩]
  | bracketed => [⟨.emptyBracketed⟩, ⟨.fullBracketed⟩]
  | pairs => [⟨.firstPair⟩, ⟨.laterPair⟩]
  | pairEntry => [⟨.openPair⟩, ⟨.commaPair⟩, ⟨.semicolonPair⟩]
  | pair => [⟨.keyValuePair⟩]
  | rules => [⟨.firstRule⟩, ⟨.laterRule⟩]
  | rule => [⟨.emptyRule⟩, ⟨.fullRule⟩]
  | selectors => [⟨.firstSelector⟩, ⟨.laterSelector⟩]
  | selector => [⟨.entitySelector⟩, ⟨.entityClassSelector⟩, ⟨.classSelector⟩]
  | entity => [⟨.nodeEntity⟩, ⟨.edgeEntity⟩, ⟨.graphEntity⟩]
  | classes => [⟨.firstClass⟩, ⟨.laterClass⟩]
  | declarations => [⟨.firstDeclaration⟩, ⟨.laterDeclaration⟩]
  | declaration => [⟨.openDeclaration⟩, ⟨.closedDeclaration⟩]

/-- Every production is listed with the phrase that it builds. -/
theorem Production.mem_alternatives
    {result : Phrase} {symbols : List Symbol}
    (production : Production result symbols) :
    ⟨production⟩ ∈ result.alternatives := by
  cases production <;> simp [Phrase.alternatives]

/-- No production is empty. -/
theorem Production.symbols_ne_nil
    {result : Phrase} {symbols : List Symbol}
    (production : Production result symbols) :
    symbols ≠ [] := by
  cases production <;> simp

end Grammar
end DotCascade
