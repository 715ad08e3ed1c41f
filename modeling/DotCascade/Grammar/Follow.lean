import DotCascade.Grammar.Symbol

/-!
# What may follow a phrase

A complete phrase is recognised by what comes next.  The sets below hold, for
every phrase, all that may stand behind it anywhere in a graph or a stylesheet.
They grow along the groups: what may follow a statement may also follow the
smaller phrases that can end it.
-/

namespace DotCascade
namespace Grammar

open Terminal

/-- The kinds of word that may open an atom. -/
def atomStarts : List Terminal :=
  [identifier, number, string, markup]

/-- The kinds of word that may stand behind a statement and its semicolon. -/
def behindEntry : List Terminal :=
  atomStarts ++ [node, edge, graph, subgraph, leftBrace, rightBrace]

/-- The kinds of word that may stand behind a statement. -/
def behindStatement : List Terminal :=
  semicolon :: behindEntry

/-- The kinds of word that may stand behind the attributes of a statement. -/
def behindAttributes : List Terminal :=
  leftBracket :: behindStatement

/-- The kinds of word that may stand behind an endpoint of a chain. -/
def behindEndpoint : List Terminal :=
  edgeOperator :: behindAttributes

/-- The kinds of word that may stand behind a node reference. -/
def behindNodeRef : List Terminal :=
  comma :: behindEndpoint

/-- The kinds of word that may stand behind an atom. -/
def behindAtom : List Terminal :=
  colon :: equals :: rightBracket :: behindNodeRef

/-- What may come next behind a phrase. -/
def Phrase.follow : Phrase → List Lookahead
  | .graph | .graphBody => [.finish]
  | .graphKind => (leftBrace :: atomStarts).map .word
  | .statements | .entry => behindEntry.map .word
  | .statement => behindStatement.map .word
  | .attributes | .bracketed => behindAttributes.map .word
  | .chain | .link | .endpoint | .subgraph | .block => behindEndpoint.map .word
  | .nodeRefs | .nodeRef => behindNodeRef.map .word
  | .atom => behindAtom.map .word
  | .quoted => (plus :: behindAtom).map .word
  | .pairs | .pairEntry => (rightBracket :: atomStarts).map .word
  | .pair => (comma :: semicolon :: rightBracket :: atomStarts).map .word
  | .rules | .rule => .finish :: [className, node, edge, Terminal.graph].map .word
  | .selectors | .selector => [comma, leftBrace].map .word
  | .entity | .classes => [className, comma, leftBrace].map .word
  | .declarations | .declaration => (rightBrace :: atomStarts).map .word

end Grammar
end DotCascade
