/-!
# Symbols of the grammar

One grammar describes graphs and stylesheets.  Its terminals are kinds of words,
its phrases are the constructs that are made of words.  What may come next in a
source is a word of some kind or the end of the source.

The terminals are listed in the order in which a piece of source is tried as one
of them.  What may come next is listed in the order in which messages name it.
-/

namespace DotCascade
namespace Grammar

/-- A kind of word. -/
inductive Terminal where
  | identifier
  | markup
  | number
  | className
  | string
  | subgraph
  | digraph
  | strict
  | graph
  | edge
  | node
  | edgeOperator
  | leftBrace
  | rightBrace
  | leftBracket
  | rightBracket
  | equals
  | comma
  | semicolon
  | colon
  | plus
deriving DecidableEq

/-- The kinds of word in the order in which they are tried. -/
def Terminal.all : List Terminal := [
  .identifier, .markup, .number, .className, .string,
  .subgraph, .digraph, .strict, .graph, .edge, .node, .edgeOperator,
  .leftBrace, .rightBrace, .leftBracket, .rightBracket,
  .equals, .comma, .semicolon, .colon, .plus]

theorem Terminal.mem_all
    (terminal : Terminal) :
    terminal ∈ Terminal.all := by
  cases terminal <;> decide

/-- A construct of graphs or stylesheets. -/
inductive Phrase where
  /-- A whole graph. -/
  | graph
  /-- The words that open a graph: whether it is strict and whether it is directed. -/
  | graphKind
  /-- The body of a whole graph between its braces. -/
  | graphBody
  /-- The body of a subgraph between its braces. -/
  | block
  | subgraph
  | statements
  /-- A statement and perhaps the semicolon behind it. -/
  | entry
  | statement
  /-- Endpoints and the edge operators between them. -/
  | chain
  /-- An edge operator and the endpoint behind it. -/
  | link
  | endpoint
  | nodeRefs
  | nodeRef
  | atom
  /-- Strings joined by plus signs. -/
  | quoted
  /-- Attributes in one or more pairs of brackets. -/
  | attributes
  /-- Attributes in one pair of brackets. -/
  | bracketed
  | pairs
  /-- An attribute and perhaps the separator behind it. -/
  | pairEntry
  /-- An attribute: a key and its value. -/
  | pair
  /-- A whole stylesheet that is not empty. -/
  | rules
  | rule
  | selectors
  | selector
  /-- The word that names a kind of element. -/
  | entity
  | classes
  | declarations
  | declaration
deriving DecidableEq

/-- All phrases. -/
def Phrase.all : List Phrase := [
  .graph, .graphKind, .graphBody, .block, .subgraph, .statements, .entry, .statement,
  .chain, .link, .endpoint, .nodeRefs, .nodeRef, .atom, .quoted, .attributes,
  .bracketed, .pairs, .pairEntry, .pair, .rules, .rule, .selectors, .selector, .entity,
  .classes, .declarations, .declaration]

/-- A kind of word or a phrase. -/
inductive Symbol where
  | word (terminal : Terminal)
  | phrase (result : Phrase)
deriving DecidableEq

/-- What may come next in a source. -/
inductive Lookahead where
  | word (terminal : Terminal)
  | finish
deriving DecidableEq

namespace Lookahead

/-- The name that a message uses. -/
def label : Lookahead → String
  | word .plus => "'+'"
  | word .comma => "','"
  | word .edgeOperator => "'->' or '--'"
  | word .colon => "':'"
  | word .semicolon => "';'"
  | word .equals => "'='"
  | word .leftBracket => "'['"
  | word .rightBracket => "']'"
  | word .digraph => "'digraph'"
  | word .edge => "'edge'"
  | word .graph => "'graph'"
  | word .node => "'node'"
  | word .strict => "'strict'"
  | word .subgraph => "'subgraph'"
  | word .leftBrace => "'\x7b'"
  | word .rightBrace => "'\x7d'"
  | word .className => "class name"
  | finish => "end of input"
  | word .identifier => "identifier"
  | word .markup => "markup"
  | word .number => "number"
  | word .string => "string"

/-- Everything that may come next, in the order of the names. -/
def all : List Lookahead := [
  .word .plus, .word .comma, .word .edgeOperator, .word .colon, .word .semicolon,
  .word .equals, .word .leftBracket, .word .rightBracket, .word .digraph,
  .word .edge, .word .graph, .word .node, .word .strict, .word .subgraph,
  .word .leftBrace, .word .rightBrace, .word .className, .finish,
  .word .identifier, .word .markup, .word .number, .word .string]

theorem mem_all
    (lookahead : Lookahead) :
    lookahead ∈ all := by
  rcases lookahead with terminal | _
  · cases terminal <;> decide
  · decide

end Lookahead

end Grammar
end DotCascade
