import DotCascade.Proofs.Grammar.Pattern

/-!
# Trees as derivations

The productions build the same constructs as the patterns, but without choices,
options and repetitions: a repetition is a row that grows to the left, an option
is a choice between two productions, and the first endpoint of a chain stands in
the productions of the chain.

The words of every phrase fill in a pattern, and every production says how the
derivation of its phrase comes from those of its symbols.  A tree and its
derivation have the same words and the same meaning.
-/

namespace DotCascade
namespace Grammar

section Rows

open Pattern

variable {a b : Pattern}

/-- A repetition with one more derivation at its end. -/
def Derivation.concat : Derivation (many a) → Derivation a → Derivation (many a)
  | .stop, last => .more last .stop
  | .more first later, last => .more first (later.concat last)

/-- One repetition behind another. -/
def Derivation.append : Derivation (many a) → Derivation (many a) → Derivation (many a)
  | .stop, later => later
  | .more first before, later => .more first (before.append later)

/-- A repetition behind some derivation, with one more derivation at its end. -/
def Derivation.longer :
    Derivation (.both b (.many a)) → Derivation a → Derivation (.both b (.many a))
  | .both first later, last => .both first (later.concat last)

@[simp] theorem yield_concat
    (before : Derivation (many a)) (last : Derivation a) :
    (before.concat last).yield = before.yield ++ last.yield := by
  match before with
  | .stop =>
      simp [Derivation.concat, Derivation.yield]
  | .more first later =>
      simp [Derivation.concat, Derivation.yield, yield_concat later last]

end Rows

section Phrases

open Terminal Nonterminal

/-- The pattern that the words of a phrase fill in. -/
@[reducible] def Phrase.pattern : Phrase → Pattern
  | graph => .one .graph
  | graphKind =>
      .both (.optional (.word strict)) (.either (.word .graph) (.word digraph))
  | graphBody | block => .both (.word leftBrace) (.both (.one body) (.word rightBrace))
  | subgraph => .one .subgraph
  | statements => body.pattern
  | entry => .both (.one .statement) (.optional (.word semicolon))
  | statement => .one .statement
  | chain => .both (.one .endpoint) (.oneOrMore (.both (.word edgeOperator) (.one .endpoint)))
  | link => .both (.word edgeOperator) (.one .endpoint)
  | endpoint => .one .endpoint
  | nodeRefs => nodeIds.pattern
  | nodeRef => .one nodeId
  | atom => .one .atom
  | quoted => Nonterminal.quoted.pattern
  | attributes => attrList.pattern
  | bracketed =>
      .both (.word leftBracket) <|
        .both (.many (.both (.one attr) (.optional (.either (.word comma) (.word semicolon))))) <|
          .word rightBracket
  | pairs => .many (.both (.one attr) (.optional (.either (.word comma) (.word semicolon))))
  | pairEntry => .both (.one attr) (.optional (.either (.word comma) (.word semicolon)))
  | pair => .one attr
  | rules => stylesheet.pattern
  | rule => .one .rule
  | selectors => .both (.one .selector) (.many (.both (.word comma) (.one .selector)))
  | selector => .one .selector
  | entity => .either (.word node) (.either (.word edge) (.word .graph))
  | classes => .oneOrMore (.word className)
  | declarations => .many (.one .declaration)
  | declaration => .one .declaration

/-- The pattern that the words of a symbol fill in. -/
@[reducible] def Symbol.pattern : Symbol → Pattern
  | word terminal => .word terminal
  | phrase result => result.pattern

end Phrases

section Productions

/-- Derivations for the symbols in a row. -/
@[reducible] def Derivations : List Symbol → Type
  | [] => Unit
  | symbol :: rest => Derivation symbol.pattern × Derivations rest

/-- The derivation of a phrase from those of the symbols that a production takes. -/
def Production.derivation : {result : Phrase} → {symbols : List Symbol} →
    Production result symbols → Derivations symbols → Derivation result.pattern
  | _, _, namelessGraph, (.both mode kind, .both opening (.both content closing), _) =>
      .one .graph <| .both mode <| .both kind <| .both .absent <|
        .both opening <| .both content closing
  | _, _, namedGraph, (.both mode kind, id, .both opening (.both content closing), _) =>
      .one .graph <| .both mode <| .both kind <| .both (.present id) <|
        .both opening <| .both content closing
  | _, _, undirected, (kind, _) => .both .absent (.left kind)
  | _, _, directed, (kind, _) => .both .absent (.right kind)
  | _, _, strictUndirected, (mode, kind, _) => .both (.present mode) (.left kind)
  | _, _, strictDirected, (mode, kind, _) => .both (.present mode) (.right kind)
  | _, _, emptyGraphBody, (opening, closing, _) | _, _, emptyBlock, (opening, closing, _) =>
      .both opening (.both (.one .body .stop) closing)
  | _, _, fullGraphBody, (opening, content, closing, _)
  | _, _, fullBlock, (opening, content, closing, _) =>
      .both opening (.both (.one .body content) closing)
  | _, _, bareSubgraph, (content, _) => .one .subgraph (.right content)
  | _, _, namelessSubgraph, (keyword, content, _) =>
      .one .subgraph (.left (.both keyword (.both .absent content)))
  | _, _, namedSubgraph, (keyword, id, content, _) =>
      .one .subgraph (.left (.both keyword (.both (.present id) content)))
  | _, _, firstEntry, (entry, _) => .more entry .stop
  | _, _, laterEntry, (before, entry, _) => before.concat entry
  | _, _, openEntry, (content, _) => .both content .absent
  | _, _, closedEntry, (content, separator, _) => .both content (.present separator)
  | _, _, assignment, (key, sign, value, _) =>
      .one .statement (.left (.one .graphAttrAssign (.both key (.both sign value))))
  | _, _, graphAttributes, (keyword, attributes, _) =>
      .one .statement <| .right <| .left <| .one .graphAttrBlock <|
        .both keyword (.one .attrList attributes)
  | _, _, nodeDefaults, (keyword, attributes, _) =>
      .one .statement <| .right <| .right <| .left <| .one .attrStmt <|
        .both (.left keyword) (.one .attrList attributes)
  | _, _, edgeDefaults, (keyword, attributes, _) =>
      .one .statement <| .right <| .right <| .left <| .one .attrStmt <|
        .both (.right keyword) (.one .attrList attributes)
  | _, _, plainChain, (.both first links, _) =>
      .one .statement <| .right <| .right <| .right <| .left <| .one .edgeStmt <|
        .both first (.both links .absent)
  | _, _, chainWithAttributes, (.both first links, attributes, _) =>
      .one .statement <| .right <| .right <| .right <| .left <| .one .edgeStmt <|
        .both first (.both links (.present (.one .attrList attributes)))
  | _, _, subgraphStatement, (inner, _) =>
      .one .statement (.right (.right (.right (.right (.left inner)))))
  | _, _, plainNodes, (refs, _) =>
      .one .statement <| .right <| .right <| .right <| .right <| .right <| .one .nodeStmt <|
        .both (.one .nodeIds refs) .absent
  | _, _, nodesWithAttributes, (refs, attributes, _) =>
      .one .statement <| .right <| .right <| .right <| .right <| .right <| .one .nodeStmt <|
        .both (.one .nodeIds refs) (.present (.one .attrList attributes))
  | _, _, chainFromNodes, (refs, link, _) =>
      .both (.one .endpoint (.right (.one .nodeIds refs))) (.both link .stop)
  | _, _, chainFromSubgraph, (inner, link, _) =>
      .both (.one .endpoint (.left inner)) (.both link .stop)
  | _, _, longerChain, (.both first links, link, _) => .both first (links.longer link)
  | _, _, edgeTo, (sign, endpoint, _) => .both sign endpoint
  | _, _, nodesEndpoint, (refs, _) => .one .endpoint (.right (.one .nodeIds refs))
  | _, _, subgraphEndpoint, (inner, _) => .one .endpoint (.left inner)
  | _, _, firstNodeRef, (ref, _) => .both ref .stop
  | _, _, laterNodeRef, (before, comma, ref, _) => before.longer (.both comma ref)
  | _, _, wholeNode, (id, _) => .one .nodeId (.both id .absent)
  | _, _, nodePort, (id, colon, name, _) =>
      .one .nodeId (.both id (.present (.both colon (.both name .absent))))
  | _, _, nodePortPoint, (id, colon, name, second, point, _) =>
      .one .nodeId <| .both id <| .present <| .both colon <| .both name <|
        .present (.both second point)
  | _, _, identifierAtom, (text, _) => .one .atom (.left text)
  | _, _, numberAtom, (text, _) => .one .atom (.right (.left text))
  | _, _, quotedAtom, (text, _) => .one .atom (.right (.right (.left (.one .quoted text))))
  | _, _, markupAtom, (nodes, _) => .one .atom (.right (.right (.right nodes)))
  | _, _, firstString, (text, _) => .both text .stop
  | _, _, laterString, (before, plus, text, _) => before.longer (.both plus text)
  | _, _, firstBracketed, (pairs, _) => .both pairs .stop
  | _, _, laterBracketed, (before, pairs, _) => before.longer pairs
  | _, _, emptyBracketed, (opening, closing, _) => .both opening (.both .stop closing)
  | _, _, fullBracketed, (opening, pairs, closing, _) => .both opening (.both pairs closing)
  | _, _, firstPair, (entry, _) => .more entry .stop
  | _, _, laterPair, (before, entry, _) => before.concat entry
  | _, _, openPair, (pair, _) => .both pair .absent
  | _, _, commaPair, (pair, comma, _) => .both pair (.present (.left comma))
  | _, _, semicolonPair, (pair, semicolon, _) => .both pair (.present (.right semicolon))
  | _, _, keyValuePair, (key, sign, value, _) => .one .attr (.both key (.both sign value))
  | _, _, firstRule, (rule, _) => .more rule .stop
  | _, _, laterRule, (before, rule, _) => before.concat rule
  | _, _, emptyRule, (.both first later, opening, closing, _) =>
      .one .rule (.both first (.both later (.both opening (.both .stop closing))))
  | _, _, fullRule, (.both first later, opening, declarations, closing, _) =>
      .one .rule (.both first (.both later (.both opening (.both declarations closing))))
  | _, _, firstSelector, (selector, _) => .both selector .stop
  | _, _, laterSelector, (before, comma, selector, _) => before.longer (.both comma selector)
  | _, _, entitySelector, (entity, _) => .one .selector (.left (.both entity .stop))
  | _, _, entityClassSelector, (entity, .both first later, _) =>
      .one .selector (.left (.both entity (.more first later)))
  | _, _, classSelector, (classes, _) => .one .selector (.right classes)
  | _, _, nodeEntity, (keyword, _) => .left keyword
  | _, _, edgeEntity, (keyword, _) => .right (.left keyword)
  | _, _, graphEntity, (keyword, _) => .right (.right keyword)
  | _, _, firstClass, (name, _) => .both name .stop
  | _, _, laterClass, (before, name, _) => before.longer name
  | _, _, firstDeclaration, (declaration, _) => .more declaration .stop
  | _, _, laterDeclaration, (before, declaration, _) => before.concat declaration
  | _, _, openDeclaration, (key, colon, value, _) =>
      .one .declaration (.both key (.both colon (.both value .absent)))
  | _, _, closedDeclaration, (key, colon, value, semicolon, _) =>
      .one .declaration (.both key (.both colon (.both value (.present semicolon))))

/-- The words of the derivations for the symbols in a row. -/
def Derivations.yield : {symbols : List Symbol} → Derivations symbols → List Word
  | [], _ => []
  | _ :: _, (first, later) => first.yield ++ later.yield

@[simp] theorem yield_longer
    {a b : Pattern} (before : Derivation (.both b (.many a))) (last : Derivation a) :
    (before.longer last).yield = before.yield ++ last.yield := by
  cases before with
  | both first later =>
      simp [Derivation.longer, Derivation.yield]

attribute [simp] Derivation.yield

/-- The derivation of a phrase has the words of the derivations of the symbols. -/
theorem yield_derivation
    {result : Phrase} {symbols : List Symbol}
    (production : Production result symbols) (children : Derivations symbols) :
    (production.derivation children).yield = children.yield := by
  cases production with
  | undirected | directed | bareSubgraph | firstEntry | openEntry | subgraphStatement | plainNodes
  | nodesEndpoint | subgraphEndpoint | firstNodeRef | wholeNode | identifierAtom | numberAtom
  | quotedAtom | markupAtom | firstString | firstBracketed | firstPair | openPair | firstRule
  | firstSelector | entitySelector | classSelector | nodeEntity | edgeEntity | graphEntity
  | firstClass | firstDeclaration =>
      obtain ⟨first, _⟩ := children
      simp [Production.derivation, Derivations.yield]
  | strictUndirected | strictDirected | emptyGraphBody | emptyBlock | namelessSubgraph | laterEntry
  | closedEntry | graphAttributes | nodeDefaults | edgeDefaults | nodesWithAttributes
  | chainFromNodes | chainFromSubgraph | edgeTo | laterBracketed | emptyBracketed | laterPair
  | commaPair | semicolonPair | laterRule | laterClass | laterDeclaration =>
      obtain ⟨first, second, _⟩ := children
      simp [Production.derivation, Derivations.yield]
  | fullGraphBody | fullBlock | namedSubgraph | assignment | laterNodeRef | nodePort | laterString
  | fullBracketed | keyValuePair | laterSelector | openDeclaration =>
      obtain ⟨first, second, third, _⟩ := children
      simp [Production.derivation, Derivations.yield]
  | closedDeclaration =>
      obtain ⟨key, colon, value, semicolon, _⟩ := children
      simp [Production.derivation, Derivations.yield]
  | nodePortPoint =>
      obtain ⟨id, colon, name, second, point, _⟩ := children
      simp [Production.derivation, Derivations.yield]
  | namelessGraph =>
      match children with
      | (.both mode kind, .both opening (.both content closing), _) =>
          simp [Production.derivation, Derivations.yield]
  | namedGraph =>
      match children with
      | (.both mode kind, id, .both opening (.both content closing), _) =>
          simp [Production.derivation, Derivations.yield]
  | plainChain =>
      match children with
      | (.both first links, _) =>
          simp [Production.derivation, Derivations.yield]
  | chainWithAttributes | longerChain =>
      match children with
      | (.both first links, second, _) =>
          simp [Production.derivation, Derivations.yield]
  | emptyRule =>
      match children with
      | (.both first later, opening, closing, _) =>
          simp [Production.derivation, Derivations.yield]
  | fullRule =>
      match children with
      | (.both first later, opening, declarations, closing, _) =>
          simp [Production.derivation, Derivations.yield]
  | entityClassSelector =>
      match children with
      | (entity, .both first later, _) =>
          simp [Production.derivation, Derivations.yield]

mutual

/-- A tree as a derivation. -/
def Tree.derivation : {symbol : Symbol} → Tree symbol → Derivation symbol.pattern
  | _, .leaf terminal lexeme => .word terminal lexeme
  | _, .node production children => production.derivation children.derivations

/-- The trees of a forest as derivations. -/
def Forest.derivations : {symbols : List Symbol} → Forest symbols → Derivations symbols
  | _, .nil => ()
  | _, .cons tree later => (tree.derivation, later.derivations)

end

mutual

/-- A tree and its derivation have the same words. -/
theorem Tree.yield_derivation {symbol : Symbol} (tree : Tree symbol) :
    tree.derivation.yield = tree.yield := by
  match tree with
  | .leaf terminal lexeme =>
      simp [Tree.derivation, Tree.yield]
  | .node production children =>
      rw [Tree.derivation, Tree.yield, ← children.yield_derivations]
      exact Grammar.yield_derivation production children.derivations

/-- A forest and its derivations have the same words. -/
theorem Forest.yield_derivations {symbols : List Symbol} (forest : Forest symbols) :
    forest.derivations.yield = forest.yield := by
  match forest with
  | .nil =>
      rfl
  | .cons tree later =>
      rw [Forest.derivations, Forest.yield, Derivations.yield, tree.yield_derivation,
        later.yield_derivations]

end

end Productions

end Grammar
end DotCascade
