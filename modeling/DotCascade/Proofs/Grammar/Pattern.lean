import DotCascade.Grammar.Meaning

/-!
# The grammar with choices and repetitions

The grammar is written here as its authors read it: every nonterminal has one
pattern, made of words and nonterminals by sequence, choice, option and
repetition.  A derivation says how a pattern is filled in.

A function for every nonterminal that gives a value for what its pattern is filled
in with gives a value for every derivation (`Derivation.fold`).
-/

namespace DotCascade
namespace Grammar

section Patterns

/-- The nonterminals of the grammar. -/
inductive Nonterminal where
  | atom
  | quoted
  | attrList
  | attr
  | graph
  | body
  | statement
  | graphAttrAssign
  | graphAttrBlock
  | attrStmt
  | edgeStmt
  | endpoint
  | subgraph
  | nodeStmt
  | nodeIds
  | nodeId
  | stylesheet
  | rule
  | selector
  | declaration

/-- How words and nonterminals are put together. -/
inductive Pattern where
  | word (terminal : Terminal)
  | one (nonterminal : Nonterminal)
  | both (first second : Pattern)
  | either (left right : Pattern)
  | optional (inner : Pattern)
  | many (inner : Pattern)

namespace Pattern

/-- A pattern once or more often. -/
@[reducible] def oneOrMore (inner : Pattern) : Pattern :=
  both inner (many inner)

end Pattern

open Pattern Terminal

/-- The pattern of a nonterminal. -/
@[reducible] def Nonterminal.pattern : Nonterminal → Pattern
  | atom =>
      either (word identifier) <| either (word number) <|
        either (one quoted) (word markup)
  | quoted => both (word string) (many (both (word plus) (word string)))
  | attrList =>
      oneOrMore <| both (word leftBracket) <|
        both (many (both (one attr) (optional (either (word comma) (word semicolon))))) <|
          word rightBracket
  | attr => both (one atom) <| both (word equals) (one atom)
  | graph =>
      both (optional (word strict)) <| both (either (word .graph) (word digraph)) <|
        both (optional (one atom)) <| both (word leftBrace) <|
          both (one body) (word rightBrace)
  | body => many (both (one statement) (optional (word semicolon)))
  | statement =>
      either (one graphAttrAssign) <| either (one graphAttrBlock) <| either (one attrStmt) <|
        either (one edgeStmt) <| either (one subgraph) (one nodeStmt)
  | graphAttrAssign => both (one atom) <| both (word equals) (one atom)
  | graphAttrBlock => both (word .graph) (one attrList)
  | attrStmt => both (either (word node) (word edge)) (one attrList)
  | edgeStmt =>
      both (one endpoint) <| both (oneOrMore (both (word edgeOperator) (one endpoint))) <|
        optional (one attrList)
  | endpoint => either (one subgraph) (one nodeIds)
  | subgraph =>
      either
        (both (word .subgraph) <| both (optional (one atom)) <| both (word leftBrace) <|
          both (one body) (word rightBrace))
        (both (word leftBrace) <| both (one body) (word rightBrace))
  | nodeStmt => both (one nodeIds) (optional (one attrList))
  | nodeIds => both (one nodeId) (many (both (word comma) (one nodeId)))
  | nodeId =>
      both (one atom) <| optional <| both (word colon) <| both (one atom) <|
        optional (both (word colon) (one atom))
  | stylesheet => many (one rule)
  | rule =>
      both (one selector) <| both (many (both (word comma) (one selector))) <|
        both (word leftBrace) <| both (many (one declaration)) (word rightBrace)
  | selector =>
      either
        (both (either (word node) (either (word edge) (word .graph))) (many (word className)))
        (oneOrMore (word className))
  | declaration =>
      both (one atom) <| both (word colon) <| both (one atom) (optional (word semicolon))

/-- A way to fill in a pattern. -/
inductive Derivation : Pattern → Type where
  | word (terminal : Terminal) (lexeme : terminal.Lexeme) : Derivation (.word terminal)
  | one (nonterminal : Nonterminal) (inner : Derivation nonterminal.pattern) :
      Derivation (.one nonterminal)
  | both {a b : Pattern} (first : Derivation a) (second : Derivation b) : Derivation (.both a b)
  | left {a b : Pattern} (inner : Derivation a) : Derivation (.either a b)
  | right {a b : Pattern} (inner : Derivation b) : Derivation (.either a b)
  | absent {a : Pattern} : Derivation (.optional a)
  | present {a : Pattern} (inner : Derivation a) : Derivation (.optional a)
  | stop {a : Pattern} : Derivation (.many a)
  | more {a : Pattern} (first : Derivation a) (later : Derivation (.many a)) :
      Derivation (.many a)

/-- The words of a derivation. -/
def Derivation.yield : {pattern : Pattern} → Derivation pattern → List Word
  | _, .word terminal lexeme => [⟨terminal, lexeme⟩]
  | _, .one _ inner | _, .left inner | _, .right inner | _, .present inner => inner.yield
  | _, .both first second => first.yield ++ second.yield
  | _, .absent | _, .stop => []
  | _, .more first later => first.yield ++ later.yield

end Patterns

section Folds

/-- What a pattern is filled in with, if the nonterminals are given. -/
@[reducible] def Pattern.Value (V : Nonterminal → Type) : Pattern → Type
  | word terminal => terminal.Lexeme
  | one nonterminal => V nonterminal
  | both first second => first.Value V × second.Value V
  | either left right => left.Value V ⊕ right.Value V
  | optional inner => Option (inner.Value V)
  | many inner => List (inner.Value V)

/-- A value for every nonterminal from the values in its pattern. -/
def Algebra (V : Nonterminal → Type) : Type :=
  (nonterminal : Nonterminal) → nonterminal.pattern.Value V → V nonterminal

/-- The value of a derivation. -/
def Derivation.fold {V : Nonterminal → Type} (algebra : Algebra V) :
    {pattern : Pattern} → Derivation pattern → pattern.Value V
  | _, .word _ lexeme => lexeme
  | _, .one nonterminal inner => algebra nonterminal (inner.fold algebra)
  | _, .both first second => (first.fold algebra, second.fold algebra)
  | _, .left inner => Sum.inl (inner.fold algebra)
  | _, .right inner => Sum.inr (inner.fold algebra)
  | _, .absent => none
  | _, .present inner => some (inner.fold algebra)
  | _, .stop => []
  | _, .more first later => first.fold algebra :: later.fold algebra

end Folds

end Grammar
end DotCascade
